import Panoptes.Runtime.Commit
import Panoptes.Runtime.OrderedIterator

/-!
# The order in which transactions are committed

A transaction stores accounts that it has locked for writing, and pays its fee from one of them.  So
transactions that write different accounts are committed in any order, with the same accounts, rent
and fees and with one result for each of them.

* `Ledger.setAll_flatMap_perm` — writes to different accounts.
* `store_keys`, `mem_feeWrite` — what a transaction writes.
* `filterProgramErrorsAndCollectFee_eq`, `commitTransactions_eq` — a batch, as the accounts have it
  before.

Principal result: `commitTransactions_perm`.
-/

set_option autoImplicit false

namespace Panoptes.Sdk.Ledger
open Lib List

variable {δ : Type} (l : Ledger δ) {key : Pubkey} {ws : List (Pubkey × Account δ)}

theorem set_comm {key' : Pubkey} (a a' : Account δ) (h : key ≠ key') :
    (l.set key a).set key' a' = (l.set key' a').set key a := by
  refine Std.ExtTreeMap.ext_getElem? fun k => ?_
  simp only [set, getElem?_insert_ite]
  by_cases hk : k = key
  · rw [if_pos hk, if_pos hk, if_neg fun h' => h (hk.symm.trans h')]
  · rw [if_neg hk, if_neg hk]

theorem set_setAll (a : Account δ) (h : key ∉ ws.map Prod.fst) :
    (l.set key a).setAll ws = (l.setAll ws).set key a := by
  induction ws generalizing l with
  | nil => rfl
  | cons w ws ih =>
    rw [map_cons, mem_cons, not_or] at h
    change ((l.set key a).set w.1 w.2).setAll ws = _
    rw [set_comm l a w.2 h.1]
    exact ih (l.set w.1 w.2) h.2

theorem setAll_comm {ws' : List (Pubkey × Account δ)}
    (h : ∀ key ∈ ws.map Prod.fst, key ∉ ws'.map Prod.fst) :
    (l.setAll ws).setAll ws' = (l.setAll ws').setAll ws := by
  induction ws generalizing l with
  | nil => rfl
  | cons w ws ih =>
    obtain ⟨hw, h⟩ := forall_mem_cons.mp h
    change ((l.set w.1 w.2).setAll ws).setAll ws' = ((l.setAll ws').set w.1 w.2).setAll ws
    rw [ih _ h, set_setAll l w.2 hw]

/-- **Writes to different accounts are made in any order.** -/
theorem setAll_flatMap_perm {α : Type} {xs ys : List α} (hperm : xs.Perm ys)
    (f : α → List (Pubkey × Account δ))
    (h : ∀ x ∈ xs, ∀ y ∈ xs, x ≠ y → ∀ key ∈ (f x).map Prod.fst, key ∉ (f y).map Prod.fst) :
    l.setAll (xs.flatMap f) = l.setAll (ys.flatMap f) := by
  have hfold : ∀ (zs : List α) (l : Ledger δ), l.setAll (zs.flatMap f) =
      zs.foldl (fun l x => l.setAll (f x)) l := by
    intro zs
    induction zs with
    | nil => exact fun _ => rfl
    | cons z zs ih =>
      intro l
      rw [flatMap_cons, setAll_append, ih]
      rfl
  rw [hfold, hfold]
  refine hperm.foldl_eq' (fun x hx y hy l => ?_) l
  by_cases hxy : x = y
  · rw [hxy]
  · exact setAll_comm l (h x hx y hy hxy)

end Panoptes.Sdk.Ledger

namespace Panoptes.Runtime

open Lib Sdk List

section
variable {env : BankEnv} {m : Message} {failed : Bool} {rollback : Option NonceRollbackFull}
  {rent : Nat} {writes : List (Pubkey × BankAccount)} {x : Executed} {l : BankLedger} {b : Bank}
  {batch : List Entry}

theorem storeAt_key {accounts : List BankAccount} {i : Nat} {w : Pubkey × BankAccount}
    (h : storeAt env m failed rollback accounts i = .ok (some w, rent)) :
    w.1 = m.key i ∧ m.isWritable i = true := by
  unfold storeAt at h
  split at h
  · cases h
  · split at h
    · cases h
    · dsimp only at h
      split at h
      · rename_i hwrite
        split at h
        · cases h
        · cases h
          exact ⟨rfl, hwrite.1⟩
      · cases h

theorem storeAll_keys {loaded : LoadedTransaction}
    (h : storeAll env m failed rollback loaded = .ok (writes, rent)) :
    ∀ key ∈ writes.map Prod.fst, key ∈ m.writableKeys := by
  obtain ⟨stored, hstored, h⟩ := bind_eq_ok.mp h
  cases h
  intro key hkey
  obtain ⟨w, hw, rfl⟩ := mem_map.mp hkey
  obtain ⟨⟨w', r⟩, hmem, hsome⟩ := mem_filterMap.mp hw
  cases hsome
  obtain ⟨i, hi, hstore⟩ : ∃ i ∈ range m.accountKeys.length,
      storeAt env m failed rollback loaded.accounts i = .ok (some w, r) := by
    exact exists_left_of_forall₂ (mapM_eq_ok hstored) hmem
  obtain ⟨hkey, hwrite⟩ := storeAt_key hstore
  exact Message.mem_writableKeys.mpr ⟨i, mem_range.mp hi, hwrite, hkey.symm⟩

theorem store_keys
    (h : x.store env = .ok (writes, rent)) :
    ∀ key ∈ writes.map Prod.fst, key ∈ x.tx.message.writableKeys := by
  unfold Executed.store at h
  split at h
  · cases h
    simp
  · unfold collectAccountsToStore at h
    split at h
    · exact storeAll_keys h
    · exact storeAll_keys h
    · cases h
      simp

/-! ## Fees -/

def withdrawFrom (env : BankEnv) (account : BankAccount) (lamports : Nat) :
    Except TransactionError BankAccount :=
  if account.lamports = 0 then .error .accountNotFound
  else
    let minBalance :=
      if getSystemAccountKind account = some .nonce then minBalance env .nonce else 0
    if account.lamports < wrapAdd lamports minBalance then .error .insufficientFundsForFee
    else .ok { account with lamports := wrapSub account.lamports lamports }

section

variable (env : BankEnv) (l : BankLedger)

theorem withdraw_eq (pubkey : Pubkey) (lamports : Nat) :
    withdraw env l pubkey lamports =
      (withdrawFrom env (l.get pubkey) lamports).map (l.set pubkey) := by
  unfold withdraw withdrawFrom
  by_cases hzero : (l.get pubkey).lamports = 0
  · rw [if_pos hzero, if_pos hzero]
    rfl
  · rw [if_neg hzero, if_neg hzero]
    generalize hmin :
      (if getSystemAccountKind (l.get pubkey) = some .nonce then minBalance env .nonce else 0) =
        least
    by_cases hlow : (l.get pubkey).lamports < wrapAdd lamports least
    · rw [if_pos hlow, if_pos hlow]
      rfl
    · rw [if_neg hlow, if_neg hlow]
      rfl

/-- What the fee of a transaction does, by the account of its payer: the account that is written, if
any, the fee and the result. -/
def feeOutcome (env : BankEnv) (x : Executed) (payer : BankAccount) :
    Option BankAccount × Nat × Except TransactionError Unit :=
  match feeOf env x.tx.message (x.rollback.map NonceRollbackFull.nonceAccount) with
  | none => (none, 0, .error .blockhashNotFound)
  | some fee =>
    match x.result with
    | .error (.instructionError _ _) =>
      if x.rollback.isSome then (none, fee, .ok ())
      else
        match withdrawFrom env payer fee with
        | .error e => (none, 0, .error e)
        | .ok account => (some account, fee, .ok ())
    | .ok () => (none, fee, .ok ())
    | .error e => (none, 0, .error e)

def feeWrite (x : Executed) : List (Pubkey × BankAccount) :=
  ((feeOutcome env x (l.get (x.tx.message.key 0))).1.map (Prod.mk (x.tx.message.key 0))).toList

theorem collectFee_eq (x : Executed) :
    collectFee env l x
      = (l.setAll (feeWrite env l x), (feeOutcome env x (l.get (x.tx.message.key 0))).2) := by
  unfold collectFee feeWrite feeOutcome
  cases feeOf env x.tx.message (x.rollback.map NonceRollbackFull.nonceAccount) with
  | none => rfl
  | some fee =>
    cases x.result with
    | ok _ => rfl
    | error e =>
      cases e with
      | instructionError index error =>
        by_cases hnonce : x.rollback.isSome = true
        · simp only [if_pos hnonce]
          rfl
        · simp only [if_neg hnonce, withdraw_eq]
          cases withdrawFrom env (l.get (x.tx.message.key 0)) fee with
          | error e => rfl
          | ok account => rfl
      | _ => rfl

end

/-- A failed transaction that pays its fee afterwards. -/
def Executed.withdraws (x : Executed) : Bool :=
  match x.result, x.rollback with
  | .error (.instructionError _ _), none => true
  | _, _ => false

/-- A fee is withdrawn of transactions that failed without a durable nonce. -/
theorem withdraws_of_feeWrite (h : feeWrite env l x ≠ []) : x.withdraws = true := by
  unfold Executed.withdraws
  unfold feeWrite feeOutcome at h
  split at h
  · simp at h
  · split at h
    · split at h
      · simp at h
      · rename_i hresult hnonce
        rw [hresult, Option.not_isSome_iff_eq_none.mp hnonce]
    · simp at h
    · simp at h

theorem feeOutcome_of_not_withdraws (h : x.withdraws = false) (payer payer' : BankAccount) :
    feeOutcome env x payer = feeOutcome env x payer' := by
  unfold Executed.withdraws at h
  unfold feeOutcome
  split at h
  · cases h
  · rename_i hnot
    split
    · rfl
    · split
      · rename_i i err hresult
        split
        · rfl
        · rename_i hnonce
          exact absurd (Option.not_isSome_iff_eq_none.mp hnonce) (hnot i err hresult)
      · rfl
      · rfl

theorem mem_feeWrite {key : Pubkey} (h : key ∈ (feeWrite env l x).map Prod.fst) :
    key = x.tx.message.key 0 ∧ x.withdraws = true := by
  have hne : feeWrite env l x ≠ [] := by
    intro hnil
    rw [hnil] at h
    cases h
  refine ⟨?_, withdraws_of_feeWrite hne⟩
  obtain ⟨w, hw, rfl⟩ := mem_map.mp h
  obtain ⟨a, -, rfl⟩ := Option.map_eq_some_iff.mp (Option.mem_toList.mp hw)
  rfl

/-- Payers of fees that are withdrawn are different accounts. -/
def DistinctPayers (xs : List Executed) : Prop :=
  xs.Pairwise fun x y => x.withdraws = true → y.withdraws = true →
    x.tx.message.key 0 ≠ y.tx.message.key 0

/-- **The fees of all transactions are as the accounts have it before the first of them is
collected.** -/
theorem filterProgramErrorsAndCollectFee_eq {xs : List Executed} (hxs : DistinctPayers xs)
    (l : BankLedger) : filterProgramErrorsAndCollectFee env l xs
      = (l.setAll (xs.flatMap (feeWrite env l)),
        (xs.map fun x => (feeOutcome env x (l.get (x.tx.message.key 0))).2.1).sum,
        xs.map fun x => (feeOutcome env x (l.get (x.tx.message.key 0))).2.2) := by
  induction xs generalizing l with
  | nil => rfl
  | cons x xs ih =>
    obtain ⟨hx, hxs⟩ := pairwise_cons.mp hxs
    have hsame : ∀ y ∈ xs, feeOutcome env y ((l.setAll (feeWrite env l x)).get (y.tx.message.key 0))
        = feeOutcome env y (l.get (y.tx.message.key 0)) := by
      intro y hy
      cases hw : y.withdraws with
      | false => exact feeOutcome_of_not_withdraws hw _ _
      | true =>
        rw [Ledger.get_setAll_of_notMem]
        intro hmem
        obtain ⟨hkey, hwx⟩ := mem_feeWrite hmem
        exact hx y hy hwx hw hkey.symm
    have hwrites : xs.flatMap (feeWrite env (l.setAll (feeWrite env l x))) =
        xs.flatMap (feeWrite env l) := by
      refine flatMap_congr fun y hy => ?_
      rw [feeWrite, hsame y hy]
      rfl
    rw [filterProgramErrorsAndCollectFee, collectFee_eq]
    simp only
    rw [ih hxs, hwrites, flatMap_cons, Ledger.setAll_append, map_cons, sum_cons, map_cons]
    rw [map_congr_left fun y hy => congrArg (fun o => o.2.1) (hsame y hy),
      map_congr_left fun y hy => congrArg (fun o => o.2.2) (hsame y hy)]

/-! ## Commit -/

/-- The accounts of a batch after they are stored. -/
def storedLedger (l : BankLedger) (stored : Entry → List (Pubkey × BankAccount) × Nat)
    (batch : List Entry) : BankLedger :=
  l.setAll (batch.flatMap fun e => (stored e).1)

/-- What is committed, of a batch whose accounts are stored and whose fees are of different
payers. -/
theorem commitTransactions_eq {stored : Entry → List (Pubkey × BankAccount) × Nat}
    (hstored : ∀ e ∈ batch, (execute env b.accounts e).store env = .ok (stored e))
    (hpayers : DistinctPayers (batch.map (execute env b.accounts)))
    (hl : storedLedger b.accounts stored batch = l) :
    commitTransactions env b batch = .ok
      (⟨l.setAll (batch.flatMap fun e => feeWrite env l (execute env b.accounts e)),
        (b.collectedRent +
          (batch.map fun e => (execute env b.accounts e).countedRent (stored e).2).sum) % U64,
        (b.collectorFees + (batch.map fun e => (feeOutcome env (execute env b.accounts e)
          (l.get ((execute env b.accounts e).tx.message.key 0))).2.1).sum) % U64⟩,
      batch.map fun e => (feeOutcome env (execute env b.accounts e)
        (l.get ((execute env b.accounts e).tx.message.key 0))).2.2) := by
  have hmapM : (batch.map (execute env b.accounts)).mapM (Executed.store env) =
      .ok (batch.map stored) := by
    rw [mapM_map]
    exact mapM_eq_map hstored
  have hledger : b.accounts.setAll ((batch.map stored).flatMap Prod.fst) = l := by
    rw [← hl, storedLedger, flatMap_map]
  have hrent : ((batch.map (execute env b.accounts)).zip (batch.map stored)).map
      (fun p => Executed.countedRent p.1 p.2.2)
      = batch.map fun e => (execute env b.accounts e).countedRent (stored e).2 := by
    rw [zip_map', map_map]
    rfl
  unfold commitTransactions
  simp only [hmapM, ok_bind]
  rw [hledger, filterProgramErrorsAndCollectFee_eq hpayers, hrent]
  simp only [flatMap_map, map_map, Function.comp_def]

def DisjointWrites (e e' : Entry) : Prop :=
  ∀ key ∈ e.tx.message.writableKeys, key ∉ e'.tx.message.writableKeys

theorem DisjointWrites.symm {e e' : Entry} (h : DisjointWrites e e') : DisjointWrites e' e :=
  fun key hkey hkey' => h key hkey' hkey

instance : Std.Symm DisjointWrites := ⟨fun _ _ => DisjointWrites.symm⟩

theorem execute_tx (env : BankEnv) (l : BankLedger) (e : Entry) : (execute env l e).tx = e.tx := by
  unfold execute
  split <;> rfl

/-- **A batch of transactions that write different accounts is committed in any order**, with one
result for each transaction. -/
theorem commitTransactions_perm {b' : Bank} {results : List (Except TransactionError Unit)}
    (hdisjoint : batch.Pairwise DisjointWrites)
    (hpayer : ∀ e ∈ batch, (execute env b.accounts e).withdraws = true →
      e.tx.message.key 0 ∈ e.tx.message.writableKeys)
    (h : commitTransactions env b batch = .ok (b', results)) :
    ∃ result : Entry → Except TransactionError Unit, results = batch.map result ∧
      ∀ batch', batch.Perm batch' → commitTransactions env b batch' =
        .ok (b', batch'.map result) := by
  obtain ⟨stored, hstored⟩ : ∃ stored : Entry → List (Pubkey × BankAccount) × Nat,
      ∀ e ∈ batch, (execute env b.accounts e).store env = .ok (stored e) := by
    obtain ⟨ss, hss, -⟩ := bind_eq_ok.mp h
    have hall : ∀ e ∈ batch, ∃ s, (execute env b.accounts e).store env = .ok s := by
      rw [mapM_map] at hss
      have hforall := mapM_eq_ok hss
      clear hss h hdisjoint hpayer
      induction hforall with
      | nil => simp
      | cons hx _ ih => exact forall_mem_cons.mpr ⟨⟨_, hx⟩, ih⟩
    choose! stored hstored using hall
    exact ⟨stored, hstored⟩
  have hpayers : ∀ batch' : List Entry, batch'.Pairwise DisjointWrites → (∀ e ∈ batch', e ∈ batch) →
      DistinctPayers (batch'.map (execute env b.accounts)) := by
    intro batch' hpair hsub
    refine pairwise_map.mpr (hpair.imp_of_mem fun {e e'} he he' hd hw hw' hkey => ?_)
    rw [execute_tx, execute_tx] at hkey
    exact hd _ (hpayer e (hsub e he) hw) (hkey ▸ hpayer e' (hsub e' he') hw')
  have hrun := commitTransactions_eq hstored (hpayers batch hdisjoint fun _ he => he) rfl
  rw [hrun] at h
  cases h
  refine ⟨_, rfl, fun batch' hperm => ?_⟩
  have hmem : ∀ e ∈ batch', e ∈ batch := fun e he => hperm.mem_iff.mpr he
  have hdisjoint' : batch'.Pairwise DisjointWrites :=
    (hperm.pairwise_iff fun h => h.symm).mp hdisjoint
  have hapart : ∀ e ∈ batch, ∀ e' ∈ batch, e ≠ e' → DisjointWrites e e' := fun e he e' he' hne =>
    hdisjoint.forall he he' hne
  have hledger : storedLedger b.accounts stored batch' = storedLedger b.accounts stored batch := by
    refine (Ledger.setAll_flatMap_perm _ hperm _ fun e he e' he' hne key hkey hkey' => ?_).symm
    have hw := store_keys (hstored e he) key hkey
    have hw' := store_keys (hstored e' he') key hkey'
    rw [execute_tx] at hw hw'
    exact hapart e he e' he' hne key hw hw'
  rw [commitTransactions_eq
    (fun e he => hstored e (hmem e he)) (hpayers batch' hdisjoint' hmem) hledger]
  have hfees : (storedLedger b.accounts stored batch).setAll
        (batch.flatMap fun e =>
          feeWrite env (storedLedger b.accounts stored batch) (execute env b.accounts e))
      = (storedLedger b.accounts stored batch).setAll
        (batch'.flatMap fun e =>
          feeWrite env (storedLedger b.accounts stored batch) (execute env b.accounts e)) := by
    refine Ledger.setAll_flatMap_perm _ hperm _ fun e he e' he' hne key hkey hkey' => ?_
    obtain ⟨hk, hw⟩ := mem_feeWrite hkey
    obtain ⟨hk', hw'⟩ := mem_feeWrite hkey'
    rw [execute_tx] at hk hk'
    exact hapart e he e' he' hne key (hk ▸ hpayer e he hw) (hk' ▸ hpayer e' he' hw')
  simp only [hfees, (hperm.map _).sum_eq]

end

end Panoptes.Runtime
