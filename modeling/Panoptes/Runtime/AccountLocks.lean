import Panoptes.Lib.Runs
import Panoptes.Runtime.OrderedIterator
import Panoptes.Sdk.Transaction

/-!
# Account locks

The lock tables of `runtime/src/accounts.rs`: a set of accounts locked for writing, and for each
account that was read the number of its read locks.  A transaction takes all of its locks or none.
Batches are locked and unlocked by many callers; a call holds the mutex of the tables from its first
look at them to its end.

* `lockAccounts`, `unlockAccounts` — the calls.
* `LockSystem` — the tables and the batches that are locked.
* `Matches` — the tables are those of a list of transactions, no two of which are in conflict.
* `lockTransaction_spec`, `unlockAccount_spec` — one transaction.
* `lockTransactions_eq` — the results, of transactions that are not in conflict with one another.

Principal result: `locks_exclude_conflicts`, for all interleavings.
-/

set_option autoImplicit false

namespace Panoptes.Sdk

open Lib

def Message.readonlyKeys (m : Message) : List Pubkey :=
  ((List.range m.accountKeys.length).filter fun i => !m.isWritable i).map m.key

def Message.getAccountKeysByLockType (m : Message) : List Pubkey × List Pubkey :=
  (m.writableKeys, m.readonlyKeys)

end Panoptes.Sdk

namespace Panoptes.Runtime

open Lib Sdk List Message
open Std (ExtTreeMap ExtTreeSet)

def hasDuplicates : List Pubkey → Bool
  | [] => false
  | x :: xs => xs.contains x || hasDuplicates xs

/-- The lock tables.  Those of `Accounts::default()` have no map of read locks. -/
structure LockState where
  accountLocks : ExtTreeSet Pubkey
  readonlyLocks : Option (ExtTreeMap Pubkey Nat)

abbrev LockResult := Except TransactionError Unit

namespace LockState

/-- The tables of `Accounts::new`, `Accounts::new_from_parent` and `Accounts::new_empty`. -/
def new : LockState := ⟨∅, some ∅⟩

variable (s : LockState)

def isLockedReadonly (key : Pubkey) : Bool :=
  match s.readonlyLocks with
  | none => false
  | some locks => (locks[key]?).elim false fun count => decide (0 < count)

def unlockReadonly (o : Overflow) (s : LockState) (key : Pubkey) : Except Panic LockState :=
  match s.readonlyLocks with
  | none => .ok s
  | some locks =>
    match locks[key]? with
    | none => .ok s
    | some count => do
      let count ← subU64 o count 1
      .ok { s with readonlyLocks := some (locks.insert key count) }

/-- `lock_readonly`: one lock more, if there is an entry for the account. -/
def lockReadonly (key : Pubkey) : LockState × Bool :=
  match s.readonlyLocks with
  | none => (s, false)
  | some locks =>
    match locks[key]? with
    | none => (s, false)
    | some count => ({ s with readonlyLocks := some (locks.insert key (count + 1)) }, true)

/-- `insert_readonly`, of a lock that is held once. -/
def insertReadonly (key : Pubkey) : Except Panic LockState :=
  match s.readonlyLocks with
  | none => .ok s
  | some locks => do
    assert (locks[key]? = none)
    .ok { s with readonlyLocks := some (locks.insert key 1) }

/-- The locks on accounts that have an entry, and the accounts that have none. -/
def lockReadonlyKeys (s : LockState) : List Pubkey → LockState × List Pubkey
  | [] => (s, [])
  | key :: keys =>
    let (s, locked) := s.lockReadonly key
    let (s, missing) := s.lockReadonlyKeys keys
    (s, if locked then missing else key :: missing)

/-- The locks of `lock_account`, after its checks. -/
def takeLocks (writableKeys readonlyKeys : List Pubkey) : Except Panic LockState :=
  let accountLocks := writableKeys.foldl (fun locks key => locks.insert key) s.accountLocks
  let (s, readonlyWrites) := LockState.lockReadonlyKeys { s with accountLocks } readonlyKeys
  readonlyWrites.foldlM insertReadonly s

def lockAccount (writableKeys readonlyKeys : List Pubkey) : Except Panic (LockResult × LockState) :=
  if writableKeys.any fun key => s.accountLocks.contains key || s.isLockedReadonly key then
    .ok (.error .accountInUse, s)
  else if readonlyKeys.any fun key => s.accountLocks.contains key then .ok (.error .accountInUse, s)
  else do
    let s ← s.takeLocks writableKeys readonlyKeys
    .ok (.ok (), s)

def unlockAccount (o : Overflow) (s : LockState) (tx : Transaction) (result : LockResult) :
    Except Panic LockState :=
  match result with
  | .error .accountInUse | .error .sanitizeFailure | .error .accountLoadedTwice => .ok s
  | _ =>
    let (writableKeys, readonlyKeys) := tx.message.getAccountKeysByLockType
    let s := { s with
      accountLocks := writableKeys.foldl (fun locks key => locks.erase key) s.accountLocks }
    readonlyKeys.foldlM (unlockReadonly o) s

def lockKeys (tx : Transaction) : Except TransactionError (List Pubkey × List Pubkey) :=
  if tx.sanitize = false then .error .sanitizeFailure
  else if hasDuplicates tx.message.accountKeys then .error .accountLoadedTwice
  else .ok tx.message.getAccountKeysByLockType

/-- One transaction of `lock_accounts`. -/
def lockTransaction (tx : Transaction) : Except Panic (LockResult × LockState) :=
  match lockKeys tx with
  | .ok (writableKeys, readonlyKeys) => s.lockAccount writableKeys readonlyKeys
  | .error e => .ok (.error e, s)

def lockTransactions (s : LockState) : List Transaction → Except Panic (List LockResult × LockState)
  | [] => .ok ([], s)
  | tx :: txs => do
    let (result, s) ← s.lockTransaction tx
    let (results, s) ← s.lockTransactions txs
    .ok (result :: results, s)

def lockAccounts (txs : List Transaction) (order : Option (List Nat)) :
    Except Panic (List LockResult × LockState) := do
  let items ← orderedIterator txs order
  s.lockTransactions (items.map Prod.snd)

def unlockAccounts (o : Overflow) (s : LockState) (txs : List Transaction)
    (order : Option (List Nat)) (results : List LockResult) : Except Panic LockState := do
  let items ← orderedIterator txs order
  ((items.map Prod.snd).zip results).foldlM (fun s item => s.unlockAccount o item.1 item.2) s

end LockState

/-! ## Interleavings -/

structure LockedBatch where
  txs : List Transaction
  order : Option (List Nat)
  results : List LockResult

/-- The tables, and the batches that are not yet unlocked. -/
structure LockSystem where
  locks : LockState
  batches : List LockedBatch

/-- A call of one of the callers. -/
inductive LockCall where
  | lock (txs : List Transaction) (order : Option (List Nat))
  /-- Unlock one of the batches. -/
  | unlock (batch : Nat)

namespace LockSystem

def new : LockSystem := ⟨.new, []⟩

def run (o : Overflow) (s : LockSystem) : LockCall → Except Panic LockSystem
  | .lock txs order => do
    let (results, locks) ← s.locks.lockAccounts txs order
    .ok ⟨locks, s.batches ++ [⟨txs, order, results⟩]⟩
  | .unlock batch =>
    match s.batches[batch]? with
    | none => .ok s
    | some b => do
      let locks ← s.locks.unlockAccounts o b.txs b.order b.results
      .ok ⟨locks, s.batches.eraseIdx batch⟩

end LockSystem

def lockedOf (txs : List Transaction) (results : List LockResult) : List Transaction :=
  (txs.zip results).filterMap fun item => if item.2.toBool then some item.1 else none

def LockedBatch.items (b : LockedBatch) : List Transaction :=
  match orderedIterator b.txs b.order with
  | .ok items => items.map Prod.snd
  | .error _ => []

def LockSystem.held (s : LockSystem) : List Transaction :=
  s.batches.flatMap fun b => lockedOf b.items b.results

/-- Two transactions share an account that one of them writes. -/
def Conflict (a b : Transaction) : Prop :=
  ∃ key, (key ∈ a.message.writableKeys ∧ key ∈ b.message.accountKeys) ∨
    (key ∈ a.message.accountKeys ∧ key ∈ b.message.writableKeys)

/-- `Conflict`, by a search in the lists of keys. -/
def conflicts (a b : Transaction) : Bool :=
  (a.message.writableKeys.any fun key => b.message.accountKeys.contains key) ||
    a.message.accountKeys.any fun key => b.message.writableKeys.contains key

theorem conflicts_iff {a b : Transaction} : conflicts a b = true ↔ Conflict a b := by
  simp only [conflicts, Bool.or_eq_true, any_eq_true, contains_iff_mem, Conflict, exists_or]

instance (a b : Transaction) : Decidable (Conflict a b) := decidable_of_iff _ conflicts_iff

/-! ## Keys of a transaction -/

variable {m : Message}

theorem hasDuplicates_eq_false {xs : List Pubkey} : hasDuplicates xs = false ↔ xs.Nodup := by
  induction xs with
  | nil => simp [hasDuplicates]
  | cons x xs ih => simp [hasDuplicates, ih]

theorem mem_readonlyKeys {key : Pubkey} :
    key ∈ m.readonlyKeys ↔ ∃ i, i < m.accountKeys.length ∧ m.isWritable i = false ∧
      m.key i = key := by
  simp [readonlyKeys, and_assoc]

theorem mem_accountKeys_iff {key : Pubkey} :
    key ∈ m.accountKeys ↔ key ∈ m.writableKeys ∨ key ∈ m.readonlyKeys := by
  rw [mem_writableKeys, mem_readonlyKeys]
  constructor
  · intro h
    obtain ⟨i, hi, rfl⟩ := getElem_of_mem h
    have hkey : m.key i = m.accountKeys[i] := by simp [key, getElem?_eq_getElem hi]
    cases hw : m.isWritable i with
    | true => exact .inl ⟨i, hi, hw, hkey⟩
    | false => exact .inr ⟨i, hi, hw, hkey⟩
  · rintro (⟨i, hi, -, rfl⟩ | ⟨i, hi, -, rfl⟩)
    · exact key_mem hi
    · exact key_mem hi

theorem readonlyKeys_nodup (hnodup : m.accountKeys.Nodup) : m.readonlyKeys.Nodup := by
  refine List.Nodup.map_on ?_ (nodup_range.filter _)
  intro i hi j hj heq
  rw [mem_filter, mem_range] at hi hj
  exact key_inj hnodup hi.1 hj.1 heq

/-! ## Read locks -/

namespace LockState

variable {s : LockState} {key : Pubkey} {keys : List Pubkey} {locks : ExtTreeSet Pubkey}
  {held txs : List Transaction} {tx : Transaction} {e : TransactionError}

def readCount (s : LockState) (key : Pubkey) : Nat :=
  match s.readonlyLocks with
  | none => 0
  | some locks => (locks[key]?).getD 0

theorem isLockedReadonly_iff : s.isLockedReadonly key = true ↔ 0 < s.readCount key := by
  unfold isLockedReadonly readCount
  cases s.readonlyLocks with
  | none => simp
  | some locks => cases h : locks[key]? <;> simp [h]

theorem lockReadonlyKeys_spec (hnodup : keys.Nodup) :
    ∀ {s : LockState} {locks : ExtTreeMap Pubkey Nat}, s.readonlyLocks = some locks →
      ∃ locks', s.lockReadonlyKeys keys = ({ s with readonlyLocks := some locks' },
          keys.filter fun key => decide (locks[key]? = none)) ∧
        ∀ key : Pubkey, locks'[key]? = if key ∈ keys then (locks[key]?).map (· + 1)
          else locks[key]? := by
  induction keys with
  | nil =>
    intro s locks h
    exact ⟨locks, by rw [← h]; rfl, fun key => by simp⟩
  | cons key keys ih =>
    intro s locks h
    obtain ⟨hnotin, hnodup⟩ := nodup_cons.mp hnodup
    cases hentry : locks[key]? with
    | none =>
      obtain ⟨locks', hrun, hget⟩ := ih hnodup h
      refine ⟨locks', ?_, fun k => ?_⟩
      · simp only [lockReadonlyKeys, lockReadonly, h, hentry, hrun]
        rw [filter_cons_of_pos (by simp [hentry])]
        rfl
      · rw [hget]
        by_cases hk : k = key
        · simp [hk, hentry]
        · simp [hk]
    | some count =>
      obtain ⟨locks', hrun, hget⟩ :=
        ih hnodup (s := { s with readonlyLocks := some (locks.insert key (count + 1)) })
        rfl
      have hsame : ∀ k ∈ keys, (locks.insert key (count + 1))[k]? = locks[k]? := by
        intro k hk
        rw [getElem?_insert_ite, if_neg (ne_of_mem_of_not_mem hk hnotin)]
      refine ⟨locks', ?_, fun k => ?_⟩
      · simp only [lockReadonlyKeys, lockReadonly, h, hentry, hrun]
        rw [filter_cons_of_neg (by simp [hentry])]
        refine Prod.ext rfl (filter_congr fun k hk => ?_)
        rw [hsame k hk]
      · rw [hget]
        by_cases hk : k = key
        · subst hk
          rw [if_neg hnotin, getElem?_insert_ite, if_pos rfl, if_pos mem_cons_self, hentry]
          rfl
        · by_cases hmem : k ∈ keys
          · simp [hmem, hsame k hmem]
          · simp [hk, getElem?_insert_ite]

theorem insertReadonly_fold (hnodup : keys.Nodup) :
    ∀ {s : LockState} {locks : ExtTreeMap Pubkey Nat}, s.readonlyLocks = some locks →
      (∀ key ∈ keys, locks[key]? = none) →
      ∃ locks', keys.foldlM insertReadonly s = .ok { s with readonlyLocks := some locks' } ∧
        ∀ key : Pubkey, locks'[key]? = if key ∈ keys then some 1 else locks[key]? := by
  induction keys with
  | nil =>
    intro s locks h _
    exact ⟨locks, by rw [← h]; rfl, fun key => by simp⟩
  | cons key keys ih =>
    intro s locks h hnone
    obtain ⟨hnotin, hnodup⟩ := nodup_cons.mp hnodup
    obtain ⟨hkey, hnone⟩ := forall_mem_cons.mp hnone
    have hstep : s.insertReadonly key =
        .ok { s with readonlyLocks := some (locks.insert key 1) } := by
      simp only [insertReadonly, h]
      rw [assert_pos hkey, ok_bind]
    obtain ⟨locks', hrun, hget⟩ :=
      ih hnodup (s := { s with readonlyLocks := some (locks.insert key 1) }) rfl
      fun k hk => by
        rw [getElem?_insert_ite, if_neg (ne_of_mem_of_not_mem hk hnotin)]
        exact hnone k hk
    refine ⟨locks', ?_, fun k => ?_⟩
    · rw [foldlM_cons, hstep]
      exact hrun
    · rw [hget, getElem?_insert_ite]
      by_cases hk : k = key
      · simp [hk]
      · simp [hk]

theorem unlockReadonly_fold (o : Overflow) (hnodup : keys.Nodup) :
    ∀ {s : LockState} {locks : ExtTreeMap Pubkey Nat}, s.readonlyLocks = some locks →
      (∀ key ∈ keys, 0 < (locks[key]?).getD 0) →
      ∃ locks', keys.foldlM (unlockReadonly o) s = .ok { s with readonlyLocks := some locks' } ∧
        ∀ key : Pubkey, (locks'[key]?).getD 0 = (locks[key]?).getD 0 - if key ∈ keys then 1
          else 0 := by
  induction keys with
  | nil =>
    intro s locks h _
    exact ⟨locks, by rw [← h]; rfl, fun key => by simp⟩
  | cons key keys ih =>
    intro s locks h hpos
    obtain ⟨hnotin, hnodup⟩ := nodup_cons.mp hnodup
    obtain ⟨hkey, hpos⟩ := forall_mem_cons.mp hpos
    cases hentry : locks[key]? with
    | none => simp [hentry] at hkey
    | some count =>
      rw [hentry, Option.getD_some] at hkey
      have hstep : s.unlockReadonly o key
          = .ok { s with readonlyLocks := some (locks.insert key (count - 1)) } := by
        simp only [unlockReadonly, h, hentry]
        rw [subU64_ok o hkey, ok_bind]
      obtain ⟨locks', hrun, hget⟩ := ih hnodup
        (s := { s with readonlyLocks := some (locks.insert key (count - 1)) }) rfl fun k hk => by
          rw [getElem?_insert_ite, if_neg (ne_of_mem_of_not_mem hk hnotin)]
          exact hpos k hk
      refine ⟨locks', ?_, fun k => ?_⟩
      · rw [foldlM_cons, hstep]
        exact hrun
      · rw [hget, getElem?_insert_ite]
        by_cases hk : k = key
        · simp [hk, hnotin, hentry]
        · simp [hk]

/-! ## Write locks -/

theorem mem_foldl_insert :
    key ∈ keys.foldl (fun locks key => locks.insert key) locks ↔ key ∈ keys ∨ key ∈ locks := by
  induction keys generalizing locks with
  | nil => simp
  | cons k keys ih =>
    rw [foldl_cons, ih, mem_insert_set, mem_cons]
    tauto

theorem mem_foldl_erase :
    key ∈ keys.foldl (fun locks key => locks.erase key) locks ↔ key ∉ keys ∧ key ∈ locks := by
  induction keys generalizing locks with
  | nil => simp
  | cons k keys ih =>
    rw [foldl_cons, ih, ExtTreeSet.mem_erase, mem_cons]
    have : compare k key ≠ .eq ↔ key ≠ k := by
      rw [Ne, Std.LawfulEqOrd.compare_eq_iff_eq, eq_comm]
    tauto

/-! ## One transaction -/

/-- **The tables are those of transactions that hold their locks**, no two of them in conflict. -/
structure Matches (s : LockState) (held : List Transaction) : Prop where
  table : s.readonlyLocks.isSome
  writes : ∀ key, key ∈ s.accountLocks ↔ ∃ tx ∈ held, key ∈ tx.message.writableKeys
  reads : ∀ key, s.readCount key = held.countP fun tx => decide (key ∈ tx.message.readonlyKeys)
  exclusive : held.Pairwise fun a b => ¬ Conflict a b
  nodup : ∀ tx ∈ held, tx.message.accountKeys.Nodup

theorem conflict_comm {a b : Transaction} (h : Conflict a b) : Conflict b a := by
  obtain ⟨key, h | h⟩ := h
  · exact ⟨key, .inr h.symm⟩
  · exact ⟨key, .inl h.symm⟩

theorem Matches.perm {held' : List Transaction} (h : s.Matches held)
    (hperm : held.Perm held') : s.Matches held' where
  table := h.table
  writes key := by simp only [h.writes, hperm.mem_iff]
  reads key := by rw [h.reads, hperm.countP_eq]
  exclusive := (hperm.pairwise_iff fun hab hba => hab (conflict_comm hba)).mp h.exclusive
  nodup tx htx := h.nodup tx (hperm.mem_iff.mpr htx)

/-- An error that a transaction gets from the locks. -/
def IsLockError (e : TransactionError) : Prop :=
  e = .accountInUse ∨ e = .sanitizeFailure ∨ e = .accountLoadedTwice

/-- The locks of a transaction that is not in conflict. -/
theorem takeLocks_spec (hm : s.Matches held) (hnodup : tx.message.accountKeys.Nodup)
    (hwrite : ∀ key ∈ tx.message.writableKeys, key ∉ s.accountLocks ∧ s.readCount key = 0)
    (hread : ∀ key ∈ tx.message.readonlyKeys, key ∉ s.accountLocks) :
    ∃ s', s.takeLocks tx.message.writableKeys tx.message.readonlyKeys = .ok s' ∧
      s'.Matches (tx :: held) := by
  obtain ⟨locks, hlocks⟩ := Option.isSome_iff_exists.mp hm.table
  have hkeys := readonlyKeys_nodup hnodup
  obtain ⟨writes, hwrites⟩ : ∃ writes, writes
      = tx.message.writableKeys.foldl (fun locks key => locks.insert key) s.accountLocks := ⟨_, rfl⟩
  obtain ⟨locks₁, hlock, hget₁⟩ :=
    lockReadonlyKeys_spec hkeys (s := ⟨writes, s.readonlyLocks⟩) hlocks
  -- The accounts without an entry still have none.
  obtain ⟨locks₂, hinsert, hget₂⟩ :=
    insertReadonly_fold (hkeys.filter fun key => decide (locks[key]? = none))
    (s := ⟨writes, some locks₁⟩) rfl fun key hkey => by
      rw [mem_filter, decide_eq_true_eq] at hkey
      rw [hget₁, if_pos hkey.1, hkey.2]
      rfl
  refine ⟨⟨writes, some locks₂⟩, ?_, ?_⟩
  · simp only [takeLocks, ← hwrites, hlock]
    exact hinsert
  · have hcount : ∀ key : Pubkey, (locks₂[key]?).getD 0
        = (locks[key]?).getD 0 + if key ∈ tx.message.readonlyKeys then 1 else 0 := by
      intro key
      have hfilter : key ∈ tx.message.readonlyKeys.filter (fun key => decide (locks[key]? = none)) ↔
          key ∈ tx.message.readonlyKeys ∧
            locks[key]? = none := by rw [mem_filter, decide_eq_true_eq]
      rw [hget₂, hget₁]
      by_cases hmem : key ∈ tx.message.readonlyKeys
      · rw [if_pos hmem, if_pos hmem]
        cases hentry : locks[key]? with
        | none => rw [if_pos (hfilter.mpr ⟨hmem, hentry⟩)]; rfl
        | some => rw [if_neg fun h => by simp [(hfilter.mp h).2] at hentry]; rfl
      · rw [if_neg fun h => hmem (hfilter.mp h).1, if_neg hmem, if_neg hmem, Nat.add_zero]
    refine ⟨rfl, fun key => ?_, fun key => ?_, ?_, ?_⟩
    · rw [hwrites, mem_foldl_insert, hm.writes]
      simp
    · have hreads := hm.reads key
      simp only [readCount, hlocks] at hreads
      simp only [readCount]
      rw [hcount, hreads, countP_cons]
      simp
    · refine pairwise_cons.mpr ⟨fun tx' htx' hconflict => ?_, hm.exclusive⟩
      have hfree : ∀ key, key ∉ s.accountLocks → key ∉ tx'.message.writableKeys :=
        fun key hnot hmem =>
        hnot ((hm.writes key).mpr ⟨tx', htx', hmem⟩)
      have hnone : ∀ key, s.readCount key = 0 → key ∉ tx'.message.readonlyKeys :=
        fun key hzero hmem => by
        rw [hm.reads, countP_eq_zero] at hzero
        exact hzero tx' htx' (by simpa using hmem)
      obtain ⟨key, ⟨hw, hk⟩ | ⟨hk, hw⟩⟩ := hconflict
      · obtain ⟨hnot, hzero⟩ := hwrite key hw
        rcases mem_accountKeys_iff.mp hk with hk | hk
        · exact hfree key hnot hk
        · exact hnone key hzero hk
      · rcases mem_accountKeys_iff.mp hk with hk | hk
        · exact hfree key (hwrite key hk).1 hw
        · exact hfree key (hread key hk) hw
    · exact forall_mem_cons.mpr ⟨hnodup, hm.nodup⟩

/-- **A transaction is locked and in conflict with no other that is, or leaves the tables as they
were.** -/
theorem lockTransaction_spec (hm : s.Matches held) (tx : Transaction) :
    (∃ e, s.lockTransaction tx = .ok (.error e, s) ∧ IsLockError e) ∨
      ∃ s', s.lockTransaction tx = .ok (.ok (), s') ∧ s'.Matches (tx :: held) := by
  unfold lockTransaction lockKeys
  by_cases hsanitize : tx.sanitize = false
  · exact .inl ⟨.sanitizeFailure, by simp [hsanitize], .inr (.inl rfl)⟩
  rw [if_neg hsanitize]
  cases hdup : hasDuplicates tx.message.accountKeys with
  | true => exact .inl ⟨.accountLoadedTwice, rfl, .inr (.inr rfl)⟩
  | false =>
    change (∃ e, s.lockAccount _ _ = _ ∧ _) ∨ ∃ s', s.lockAccount _ _ = _ ∧ _
    unfold lockAccount
    split
    · exact .inl ⟨.accountInUse, rfl, .inl rfl⟩
    · rename_i hwrite
      split
      · exact .inl ⟨.accountInUse, rfl, .inl rfl⟩
      · rename_i hread
        have hfree : ∀ key ∈ tx.message.writableKeys, key ∉ s.accountLocks ∧
            s.readCount key = 0 := by
          intro key hkey
          simp only [any_eq_true, Bool.or_eq_true, not_exists, not_and, not_or] at hwrite
          obtain ⟨h1, h2⟩ := hwrite key hkey
          rw [isLockedReadonly_iff] at h2
          exact ⟨fun h => h1 (ExtTreeSet.contains_iff_mem.mpr h), by omega⟩
        have hunwritten : ∀ key ∈ tx.message.readonlyKeys, key ∉ s.accountLocks := by
          intro key hkey h
          simp only [any_eq_true, not_exists, not_and] at hread
          exact hread key hkey (ExtTreeSet.contains_iff_mem.mpr h)
        obtain ⟨s', htake, hm'⟩ :=
          takeLocks_spec hm (hasDuplicates_eq_false.mp hdup) hfree hunwritten
        exact .inr ⟨s', by rw [htake, ok_bind], hm'⟩

theorem lockTransaction_error {s' : LockState} (h : s.lockTransaction tx = .ok (.error e, s')) :
    s' = s := by
  unfold lockTransaction at h
  split at h
  · unfold lockAccount at h
    split at h
    · cases h
      rfl
    · split at h
      · cases h
        rfl
      · obtain ⟨_, _, h⟩ := bind_eq_ok.mp h
        cases h
  · cases h
    rfl

/-- **Unlocking a transaction takes its locks away and no others.** -/
theorem unlockAccount_spec (o : Overflow) (hm : s.Matches (tx :: held)) :
    ∃ s', s.unlockAccount o tx (.ok ()) = .ok s' ∧ s'.Matches held := by
  obtain ⟨locks, hlocks⟩ := Option.isSome_iff_exists.mp hm.table
  obtain ⟨hexcl, hexclusive⟩ := pairwise_cons.mp hm.exclusive
  obtain ⟨hnodup, hnodups⟩ := forall_mem_cons.mp hm.nodup
  have hreads : ∀ key, (locks[key]?).getD 0
      = (held.countP fun tx => decide (key ∈ tx.message.readonlyKeys))
        + if key ∈ tx.message.readonlyKeys then 1 else 0 := by
    intro key
    have h := hm.reads key
    simp only [readCount, hlocks] at h
    rw [h, countP_cons]
    simp
  obtain ⟨locks', hrun, hget⟩ := unlockReadonly_fold o (readonlyKeys_nodup hnodup)
    (s := { s with accountLocks :=
      tx.message.writableKeys.foldl (fun locks key => locks.erase key) s.accountLocks }) hlocks
    fun key hkey => by
      rw [hreads, if_pos hkey]
      omega
  refine ⟨_, hrun, rfl, fun key => ?_, fun key => ?_, hexclusive, hnodups⟩
  · rw [mem_foldl_erase, hm.writes]
    constructor
    · rintro ⟨hnot, tx', htx', hmem⟩
      rcases mem_cons.mp htx' with rfl | htx'
      · exact absurd hmem hnot
      · exact ⟨tx', htx', hmem⟩
    · rintro ⟨tx', htx', hmem⟩
      refine ⟨fun hw => hexcl tx' htx' ⟨key, .inl ⟨hw, ?_⟩⟩, tx', mem_cons_of_mem _ htx', hmem⟩
      exact mem_of_mem_writableKeys hmem
  · simp only [readCount]
    rw [hget, hreads]
    omega

/-! ## Batches -/

theorem lockTransactions_spec (txs : List Transaction) :
    ∀ {s : LockState} {held : List Transaction}, s.Matches held →
      ∃ results s', s.lockTransactions txs = .ok (results, s') ∧
        s'.Matches (lockedOf txs results ++ held) ∧ ∀ e, .error e ∈ results → IsLockError e := by
  induction txs with
  | nil =>
    intro s held hm
    exact ⟨[], s, rfl, hm, by simp⟩
  | cons tx txs ih =>
    intro s held hm
    rcases lockTransaction_spec hm tx with ⟨e, hlock, herror⟩ | ⟨s₁, hlock, hm₁⟩
    · obtain ⟨results, s', hrun, hm', herrors⟩ := ih hm
      refine ⟨.error e :: results, s', ?_, hm', ?_⟩
      · rw [lockTransactions, hlock]
        simp only [hrun, ok_bind]
      · intro e' he'
        rcases mem_cons.mp he' with heq | he'
        · cases heq
          exact herror
        · exact herrors e' he'
    · obtain ⟨results, s', hrun, hm', herrors⟩ := ih hm₁
      refine ⟨.ok () :: results, s', ?_, hm'.perm perm_middle, ?_⟩
      · rw [lockTransactions, hlock]
        simp only [hrun, ok_bind]
      · intro e' he'
        rcases mem_cons.mp he' with heq | he'
        · cases heq
        · exact herrors e' he'

theorem unlockAccount_error (o : Overflow) (s : LockState) (tx : Transaction)
    (h : IsLockError e) : s.unlockAccount o tx (.error e) = .ok s := by
  rcases h with rfl | rfl | rfl <;> rfl

theorem unlockTransactions_spec (o : Overflow) :
    ∀ {results : List LockResult} {s : LockState} {held : List Transaction},
      s.Matches (lockedOf txs results ++ held) → (∀ e, .error e ∈ results → IsLockError e) →
      ∃ s', (txs.zip results).foldlM (fun s item => s.unlockAccount o item.1 item.2) s = .ok s' ∧
        s'.Matches held := by
  induction txs with
  | nil =>
    intro results s held hm _
    exact ⟨s, rfl, hm⟩
  | cons tx txs ih =>
    intro results s held hm herrors
    cases results with
    | nil => exact ⟨s, rfl, hm⟩
    | cons result results =>
      have herrors' : ∀ e, .error e ∈ results → IsLockError e := fun e he =>
        herrors e (mem_cons_of_mem _ he)
      cases result with
      | error e =>
        obtain ⟨s', hrun, hm'⟩ := ih hm herrors'
        refine ⟨s', ?_, hm'⟩
        rw [zip_cons_cons, foldlM_cons]
        simp only [unlockAccount_error o s tx (herrors e mem_cons_self)]
        exact hrun
      | ok =>
        obtain ⟨s₁, hunlock, hm₁⟩ := unlockAccount_spec o hm
        obtain ⟨s', hrun, hm'⟩ := ih hm₁ herrors'
        refine ⟨s', ?_, hm'⟩
        rw [zip_cons_cons, foldlM_cons]
        simp only [hunlock]
        exact hrun

/-! ## The results of locks -/

/-- The result that a transaction gets next to others that hold their locks. -/
def lockResultOf (held : List Transaction) (tx : Transaction) : LockResult :=
  match lockKeys tx with
  | .error e => .error e
  | .ok _ => if ∃ t ∈ held, Conflict tx t then .error .accountInUse else .ok ()

theorem Matches.conflict_of_write (hm : s.Matches held) (hkey : key ∈ tx.message.accountKeys)
    (hlocked : key ∈ s.accountLocks) :
    ∃ t ∈ held, Conflict tx t := by
  obtain ⟨t, ht, hwrite⟩ := (hm.writes key).mp hlocked
  exact ⟨t, ht, key, .inr ⟨hkey, hwrite⟩⟩

theorem Matches.conflict_of_read (hm : s.Matches held) (hkey : key ∈ tx.message.writableKeys)
    (hlocked : s.isLockedReadonly key = true) :
    ∃ t ∈ held, Conflict tx t := by
  rw [isLockedReadonly_iff, hm.reads, countP_pos_iff] at hlocked
  obtain ⟨t, ht, hread⟩ := hlocked
  exact ⟨t, ht, key, .inl ⟨hkey, mem_accountKeys_iff.mpr (.inr (of_decide_eq_true hread))⟩⟩

/-- **The result of a lock is determined by the transactions that hold theirs.** -/
theorem lockTransaction_eq (hm : s.Matches held) (tx : Transaction) :
    ∃ s', s.lockTransaction tx = .ok (lockResultOf held tx, s') ∧
      s'.Matches (if (lockResultOf held tx).toBool then tx :: held else held) := by
  rcases lockTransaction_spec hm tx with ⟨e, hlock, -⟩ | ⟨s', hlock, hm'⟩
  · have hresult : lockResultOf held tx = .error e := by
      unfold lockTransaction at hlock
      unfold lockResultOf
      split at hlock
      · rename_i w r hkeys
        have hsplit : w = tx.message.writableKeys ∧ r = tx.message.readonlyKeys := by
          unfold lockKeys at hkeys
          split at hkeys
          · cases hkeys
          · split at hkeys
            · cases hkeys
            · cases hkeys
              exact ⟨rfl, rfl⟩
        obtain ⟨rfl, rfl⟩ := hsplit
        rw [hkeys]
        unfold lockAccount at hlock
        split at hlock
        · rename_i hany
          cases hlock
          obtain ⟨key, hkey, hlocked⟩ := any_eq_true.mp hany
          refine if_pos ?_
          rcases Bool.or_eq_true_iff.mp hlocked with h | h
          · exact hm.conflict_of_write (mem_of_mem_writableKeys hkey)
              (ExtTreeSet.contains_iff_mem.mp h)
          · exact hm.conflict_of_read hkey h
        · split at hlock
          · rename_i hany
            cases hlock
            obtain ⟨key, hkey, hlocked⟩ := any_eq_true.mp hany
            refine if_pos (hm.conflict_of_write (mem_accountKeys_iff.mpr (.inr hkey)) ?_)
            exact ExtTreeSet.contains_iff_mem.mp hlocked
          · obtain ⟨_, _, hlock⟩ := bind_eq_ok.mp hlock
            cases hlock
      · rename_i e' hkeys
        cases hlock
        rw [hkeys]
    exact ⟨s, by rw [hlock, hresult], by rw [hresult]; exact hm⟩
  · have hresult : lockResultOf held tx = .ok () := by
      have hfree : ¬ ∃ t ∈ held, Conflict tx t := fun ⟨t, ht, hc⟩ =>
        (pairwise_cons.mp hm'.exclusive).1 t ht hc
      unfold lockTransaction at hlock
      unfold lockResultOf
      split at hlock
      · rename_i hkeys
        rw [hkeys]
        exact if_neg hfree
      · cases hlock
    exact ⟨s', by rw [hlock, hresult], by rw [hresult]; exact hm'⟩

/-- Transactions that are not in conflict with one another do not change each other's results. -/
theorem lockTransactions_eq (hnc : txs.Pairwise fun a b => ¬ Conflict a b) :
    ∀ {s : LockState} {held extra : List Transaction}, s.Matches (extra ++ held) →
      (∀ t ∈ extra, ∀ tx ∈ txs, ¬ Conflict tx t) →
      ∃ s', s.lockTransactions txs = .ok (txs.map (lockResultOf held), s') := by
  induction txs with
  | nil => exact fun _ _ => ⟨_, rfl⟩
  | cons tx txs ih =>
    intro s held extra hm hfree
    obtain ⟨hhead, hnc⟩ := pairwise_cons.mp hnc
    have hresult : lockResultOf (extra ++ held) tx = lockResultOf held tx := by
      unfold lockResultOf
      cases lockKeys tx with
      | error => rfl
      | ok =>
        have hiff : (∃ t ∈ extra ++ held, Conflict tx t) ↔ ∃ t ∈ held, Conflict tx t := by
          constructor
          · rintro ⟨t, ht, hc⟩
            rcases mem_append.mp ht with ht | ht
            · exact absurd hc (hfree t ht tx mem_cons_self)
            · exact ⟨t, ht, hc⟩
          · rintro ⟨t, ht, hc⟩
            exact ⟨t, mem_append_right _ ht, hc⟩
        simp only [hiff]
    obtain ⟨s₁, hlock, hm₁⟩ := lockTransaction_eq hm tx
    rw [hresult] at hlock hm₁
    obtain ⟨extra', hm₂, hfree'⟩ : ∃ extra', s₁.Matches (extra' ++ held) ∧
        ∀ t ∈ extra', ∀ tx ∈ txs, ¬ Conflict tx t := by
      have hrest : ∀ t ∈ extra, ∀ tx' ∈ txs, ¬ Conflict tx' t := fun t ht tx' htx' =>
        hfree t ht tx' (mem_cons_of_mem _ htx')
      split at hm₁
      · refine ⟨tx :: extra, hm₁, forall_mem_cons.mpr ⟨fun tx' htx' hc => ?_, hrest⟩⟩
        exact hhead tx' htx' (conflict_comm hc)
      · exact ⟨extra, hm₁, hrest⟩
    obtain ⟨s', hrun⟩ := ih hnc hm₂ hfree'
    refine ⟨s', ?_⟩
    rw [lockTransactions, hlock]
    simp only [hrun, ok_bind, map_cons]

end LockState

/-! ## All interleavings -/

namespace LockSystem

variable {o : Overflow} {s s' : LockSystem}

/-- The tables are those of the batches, whose orders are positions of their transactions. -/
structure Inv (s : LockSystem) : Prop where
  locks : s.locks.Matches s.held
  order : ∀ b ∈ s.batches, ∃ items, orderedIterator b.txs b.order = .ok items
  errors : ∀ b ∈ s.batches, ∀ e, .error e ∈ b.results → LockState.IsLockError e

theorem inv_new : new.Inv where
  locks :=
    { table := rfl
      writes := by simp [new, LockState.new, held]
      reads := by simp [new, LockState.new, held, LockState.readCount]
      exclusive := List.Pairwise.nil
      nodup := by simp [new, held] }
  order := by simp [new]
  errors := by simp [new]

/-- A batch is locked, and its transactions are held then. -/
theorem lock_spec (hinv : s.Inv) {txs : List Transaction} {order : Option (List Nat)}
    {items : List (Nat × Transaction)} (hitems : orderedIterator txs order = .ok items) :
    ∃ s', s.run o (.lock txs order) = .ok s' ∧ s'.Inv := by
  obtain ⟨results, locks, hrun, hm, herrors⟩ :=
    LockState.lockTransactions_spec (items.map Prod.snd) hinv.locks
  refine ⟨⟨locks, s.batches ++ [⟨txs, order, results⟩]⟩, ?_, ?_, ?_, ?_⟩
  · simp only [run, LockState.lockAccounts, hitems, ok_bind, hrun]
  · have hbatch : (LockedBatch.mk txs order results).items = items.map Prod.snd := by
      simp [LockedBatch.items, hitems]
    have hheld : held ⟨locks, s.batches ++ [⟨txs, order, results⟩]⟩
        = s.held ++ lockedOf (items.map Prod.snd) results := by
      simp [held, hbatch]
    rw [hheld]
    exact hm.perm perm_append_comm
  · exact forall_mem_concat.mpr ⟨hinv.order, items, hitems⟩
  · exact forall_mem_concat.mpr ⟨hinv.errors, herrors⟩

theorem unlock_spec (hinv : s.Inv) (batch : Nat) :
    ∃ s', s.run o (.unlock batch) = .ok s' ∧ s'.Inv := by
  cases hb : s.batches[batch]? with
  | none => exact ⟨s, by simp only [run, hb], hinv⟩
  | some b =>
    obtain ⟨hlt, rfl⟩ := List.getElem?_eq_some_iff.mp hb
    have hperm : (s.batches[batch] :: s.batches.eraseIdx batch).Perm s.batches :=
      getElem_cons_eraseIdx_perm hlt
    have hmem : s.batches[batch] ∈ s.batches := getElem_mem hlt
    obtain ⟨items, hitems⟩ := hinv.order _ hmem
    have hbatch : s.batches[batch].items = items.map Prod.snd := by
      simp [LockedBatch.items, hitems]
    have hheld : s.held.Perm (lockedOf (items.map Prod.snd) s.batches[batch].results
        ++ (s.batches.eraseIdx batch).flatMap fun b => lockedOf b.items b.results) := by
      have h := (hperm.flatMap_right fun b => lockedOf b.items b.results).symm
      rw [flatMap_cons, hbatch] at h
      exact h
    obtain ⟨locks, hrun, hm⟩ :=
      LockState.unlockTransactions_spec o (hinv.locks.perm hheld) (hinv.errors _ hmem)
    refine ⟨⟨locks, s.batches.eraseIdx batch⟩, ?_, hm, ?_, ?_⟩
    · simp only [run, hb, LockState.unlockAccounts, hitems, ok_bind, hrun]
    · exact fun b hb => hinv.order b (mem_of_mem_eraseIdx hb)
    · exact fun b hb => hinv.errors b (mem_of_mem_eraseIdx hb)

/-- **Each call keeps the invariant.** -/
theorem inv_run (hinv : s.Inv) {call : LockCall} (h : s.run o call = .ok s') : s'.Inv := by
  cases call with
  | lock txs order =>
    cases hitems : orderedIterator txs order with
    | error =>
      simp only [run, LockState.lockAccounts, hitems] at h
      cases h
    | ok =>
      obtain ⟨s₁, hrun, hinv₁⟩ := lock_spec hinv hitems
      rw [hrun] at h
      cases h
      exact hinv₁
  | unlock batch =>
    obtain ⟨s₁, hrun, hinv₁⟩ := unlock_spec hinv batch
    rw [hrun] at h
    cases h
    exact hinv₁

/-- **Account locks exclude conflicting transactions**, in every interleaving of calls.  The tables
are determined by the transactions that hold their locks, errors leave them unchanged, calls return,
and when all batches are unlocked no account is locked for writing and every count of read locks is
zero. -/
theorem locks_exclude_conflicts (h : Reachable (run o) (fun _ _ => True) new s) :
    s.held.Pairwise (fun a b => ¬ Conflict a b) ∧
    (∀ key, key ∈ s.locks.accountLocks ↔ ∃ tx ∈ s.held, key ∈ tx.message.writableKeys) ∧
    (∀ key, s.locks.readCount key = s.held.countP fun tx =>
      decide (key ∈ tx.message.readonlyKeys)) ∧
    (∀ (locks locks' : LockState) tx e, locks.lockTransaction tx = .ok (.error e, locks') →
      locks' = locks) ∧
    (∀ txs order, IsOrder txs.length order → ∃ s', s.run o (.lock txs order) = .ok s') ∧
    (∀ batch, ∃ s', s.run o (.unlock batch) = .ok s') ∧
    (s.batches = [] → s.locks.accountLocks = ∅ ∧ ∀ key, s.locks.readCount key = 0) := by
  have hinv : s.Inv := h.invariant inv_new fun s c s' hinv _ hrun => inv_run hinv hrun
  refine ⟨hinv.locks.exclusive, hinv.locks.writes, hinv.locks.reads,
    fun _ _ _ _ => LockState.lockTransaction_error, fun txs order horder => ?_, fun batch => ?_,
      fun hnone => ?_⟩
  · obtain ⟨items, hitems⟩ := orderedIterator_returns horder
    obtain ⟨s', hrun, -⟩ := lock_spec hinv hitems
    exact ⟨s', hrun⟩
  · obtain ⟨s', hrun, -⟩ := unlock_spec hinv batch
    exact ⟨s', hrun⟩
  · have hheld : s.held = [] := by simp [held, hnone]
    have hm := hinv.locks
    rw [hheld] at hm
    refine ⟨ExtTreeSet.ext_mem fun key => ?_, fun key => by simpa using hm.reads key⟩
    simpa using hm.writes key

/-- A transaction that account `payer` pays, and that reads account 2. -/
def readingTransaction (payer : Pubkey) : Transaction where
  signatures := [0]
  message :=
    { header := ⟨1, 0, 1⟩
      accountKeys := [payer, 2]
      recentBlockhash := 0
      instructions := [⟨1, [0], []⟩] }

/-- Two batches that read account 2 are locked in turns, and both are held. -/
theorem locks_exclude_conflicts_reading : ∃ s, Reachable (run .wrapping) (fun _ _ => True) new s ∧
    s.held = [readingTransaction 3, readingTransaction 1, readingTransaction 4] ∧
    s.locks.readCount 2 = 3 ∧ s.held.Pairwise fun a b => ¬ Conflict a b := by
  obtain ⟨s, hreach, hheld, hcount⟩ : ∃ s, Reachable (run .wrapping) (fun _ _ => True) new s ∧
      s.held = [readingTransaction 3, readingTransaction 1, readingTransaction 4] ∧
        s.locks.readCount 2 = 3 :=
    exists_reachable [.lock [readingTransaction 1, readingTransaction 1] none,
      .lock [readingTransaction 1, readingTransaction 3] (some [1, 0]), .unlock 0,
      .lock [readingTransaction 1, readingTransaction 4] none] (by decide +kernel)
  exact ⟨s, hreach, hheld, hcount, (locks_exclude_conflicts hreach).1⟩

/-- **The map of read locks is not as empty as at the start**: `unlock_readonly` leaves the account
with a count of zero. -/
theorem unlocked_tables_keep_entries : ∃ s, Reachable (run .wrapping) (fun _ _ => True) new s ∧
    s.batches = [] ∧ s.locks.readonlyLocks ≠ LockState.new.readonlyLocks := by
  obtain ⟨s, hreach, hnone, hentry⟩ : ∃ s, Reachable (run .wrapping) (fun _ _ => True) new s ∧
      s.batches.isEmpty = true ∧ (s.locks.readonlyLocks.map fun locks => locks[(2 : Pubkey)]?) =
        some (some 0) :=
    exists_reachable [.lock [readingTransaction 1] none, .unlock 0] (by decide +kernel)
  refine ⟨s, hreach, isEmpty_iff.mp hnone, fun heq => ?_⟩
  rw [heq] at hentry
  simp [LockState.new] at hentry

end LockSystem

end Panoptes.Runtime
