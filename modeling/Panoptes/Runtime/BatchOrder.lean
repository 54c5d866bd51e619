import Panoptes.Runtime.CommitOrder
import Panoptes.Runtime.TransactionBatch

/-!
# The iteration order of a batch

Each step of a batch pairs the transactions with a vector of results, by hand.  Where the vectors
are all in the iteration order, the batch is processed transaction by transaction
(`loadExecuteAndCommitTransactions_eq`), and the entries are committed as in `commitTransactions`.

* `entryOf`, `execute_entryOf` — a transaction of a batch as an entry.
* `recordAll_perm` — statuses.
* `processBatch_eq` — a batch that is prepared and processed.

Principal result: `processBatch_any_order`.
-/

set_option autoImplicit false

namespace Panoptes.Runtime

open Lib Sdk List LockState NonceRollbackPartial

namespace WorkingBank

variable (cfg : BankConfig) (b : WorkingBank) (maxAge : Nat)

section

variable (tx : Transaction) (lockResult : LockResult)

/-- One transaction of `check_transactions`. -/
def checkOf : TransactionCheckResult :=
  let result := b.checkSignaturesOf cfg tx (b.checkAgeOf maxAge tx lockResult)
  if cfg.upgradeEpoch then filterByVoteOf cfg tx result else result

/-- One transaction of `load_and_execute_transactions`. -/
def outcomeOf : TransactionLoadResult × TransactionExecutionResult :=
  b.executeOf cfg tx (b.loadOf cfg tx (b.checkOf cfg maxAge tx lockResult))

/-- A checked transaction, with what its programs do. -/
def entryOf : Entry where
  tx := tx
  check :=
    match b.checkOf cfg maxAge tx lockResult with
    | (.error e, _) => .error e
    | (.ok (), rollback) => .ok (rollback.map nonceAddress)
  programs := cfg.loaders b.accounts tx.message
  outcome := cfg.processMessage b.accounts tx.message

end

variable {cfg b maxAge}

/-- The nonce account of a checked transaction is the one of the bank. -/
theorem rollback_of_checkOf {tx : Transaction} {lockResult : LockResult}
    {result : Except TransactionError Unit}
    {rollback : NonceRollbackPartial}
    (h : b.checkOf cfg maxAge tx lockResult = (result, some rollback)) :
    rollback.nonceAccount = b.accounts.get rollback.nonceAddress := by
  have hage : ∀ {r}, (b.checkAgeOf maxAge tx lockResult) = (r, some rollback) →
      rollback.nonceAccount = b.accounts.get rollback.nonceAddress := by
    intro r h
    unfold checkAgeOf at h
    split at h
    · cases h
    · split at h
      · cases h
      · split at h
        · rename_i found hnonce
          cases h
          unfold checkTxDurableNonce at hnonce
          simp only [Option.bind_eq_bind, Option.bind_eq_some_iff] at hnonce
          obtain ⟨_, -, pubkey, -, account, haccount, hsome⟩ := hnonce
          split at hsome
          · cases hsome
            unfold getAccount at haccount
            split at haccount
            · cases haccount
            · exact (Option.some.inj haccount).symm
          · cases hsome
        · cases h
  have hsig : ∀ {r}, b.checkSignaturesOf cfg tx (b.checkAgeOf maxAge tx lockResult) =
      (r, some rollback) →
      rollback.nonceAccount = b.accounts.get rollback.nonceAddress := by
    intro r h
    unfold checkSignaturesOf at h
    split at h
    · exact hage h
    · split at h
      · cases h
      · exact hage h
  unfold checkOf at h
  dsimp only at h
  split at h
  · unfold filterByVoteOf at h
    split at h
    · split at h
      · exact hsig h
      · cases hr : b.checkSignaturesOf cfg tx (b.checkAgeOf maxAge tx lockResult) with
        | mk =>
          rw [hr] at h
          cases h
          exact hsig hr
    · exact hsig h
  · exact hsig h

/-- **A transaction is executed as its entry is.** -/
theorem execute_entryOf (tx : Transaction) (lockResult : LockResult) :
    execute (b.env cfg) b.accounts (b.entryOf cfg maxAge tx lockResult)
      = ⟨tx, (b.outcomeOf cfg maxAge tx lockResult).1.1, (b.outcomeOf cfg maxAge tx lockResult).2.1,
        (b.outcomeOf cfg maxAge tx lockResult).2.2⟩ := by
  have hnonce := @rollback_of_checkOf cfg b maxAge tx lockResult
  unfold outcomeOf execute loadTransaction entryOf
  revert hnonce
  cases b.checkOf cfg maxAge tx lockResult with
  | mk result rollback =>
    intro hnonce
    cases result with
    | error => rfl
    | ok u =>
      have haccount : (rollback.map nonceAddress).map b.accounts.get =
          rollback.map nonceAccount := by
        cases rollback with
        | none => rfl
        | some => exact congrArg some (hnonce rfl).symm
      unfold loadOf
      dsimp only
      rw [haccount]
      cases feeOf (b.env cfg) tx.message (rollback.map nonceAccount) with
      | none => rfl
      | some fee =>
        dsimp only
        cases loadTxAccounts (b.env cfg) b.accounts tx fee with
        | error => rfl
        | ok loaded =>
          dsimp only [ok_bind]
          cases cfg.loaders b.accounts tx.message with
          | error => rfl
          | ok =>
            cases rollback with
            | none => rfl
            | some r =>
              have hr : r = ⟨r.nonceAddress, b.accounts.get r.nonceAddress⟩ := by
                rw [← hnonce rfl]
              simp only [Option.map_some, rollbackOf, ← hr]
              cases NonceRollbackFull.fromPartial r tx.message loaded.accounts with
              | error => rfl
              | ok => rfl

section Items

variable {txs : List Transaction} {order : Option (List Nat)} {ordered : List Transaction}
  {lockResult : Transaction → LockResult}

theorem checkTransactions_eq (h : IteratesAs txs order ordered) :
    b.checkTransactions cfg txs order (ordered.map lockResult) maxAge
      = .ok (ordered.map fun tx => b.checkOf cfg maxAge tx (lockResult tx)) := by
  simp only [checkTransactions, checkAge, checkSignatures, filterByVoteTransactions,
    zipOrdered_map h, ok_bind,
    checkOf]
  split <;> rfl

theorem loadAndExecuteTransactions_eq (h : IteratesAs txs order ordered)
    (hlen : ordered.length = txs.length) :
    b.loadAndExecuteTransactions cfg txs order (ordered.map lockResult) maxAge
      = .ok ⟨ordered.map fun tx => (b.outcomeOf cfg maxAge tx (lockResult tx)).1,
        ordered.map fun tx => (b.outcomeOf cfg maxAge tx (lockResult tx)).2,
        ordered.countP fun tx => (b.outcomeOf cfg maxAge tx (lockResult tx)).2.1.toBool,
        (ordered.map fun tx =>
          signaturesOf tx (b.loadOf cfg tx (b.checkOf cfg maxAge tx (lockResult tx)))).sum⟩ := by
  have hcount : ∀ executed : List TransactionExecutionResult, executed.length = txs.length →
      ((executed.zip txs).countP fun p => p.1.1.toBool) = executed.countP fun r => r.1.toBool := by
    intro executed hlen
    conv_rhs => rw [← map_fst_zip hlen.le, countP_map]
    rfl
  simp only [loadAndExecuteTransactions, checkTransactions_eq h, loadAccounts,
    zipOrdered_map h, ok_bind]
  rw [hcount _ (by simpa using hlen), map_map, map_map, countP_map]
  rfl

def withRent (loaded : TransactionLoadResult) (rent : Nat) : TransactionLoadResult :=
  (loaded.1.map fun acc => { acc with rent }, loaded.2)

/-- A transaction after its execution, by its results. -/
def executionOf (tx : Transaction) (loaded : TransactionLoadResult)
    (result : TransactionExecutionResult) : Executed :=
  ⟨tx, loaded.1, result.1, result.2⟩

section

variable (tx : Transaction) (loaded : TransactionLoadResult) (result : TransactionExecutionResult)

theorem collectOf_eq :
    b.collectOf cfg tx loaded result
      = (executionOf tx loaded result).store (b.env cfg) >>= fun s =>
        .ok (s.1, withRent loaded s.2) := by
  obtain ⟨acc, rollback⟩ := loaded
  cases acc with
  | error => rfl
  | ok => rfl

theorem rentOf_withRent
    (rent : Nat) :
    rentOf (withRent loaded rent) result = (executionOf tx loaded result).countedRent rent := by
  obtain ⟨acc, rollback⟩ := loaded
  obtain ⟨res, rollback'⟩ := result
  cases acc with
  | error => cases res <;> rfl
  | ok => cases res <;> rfl

end

def recordAll (cfg : BankConfig) (executed : Transaction → TransactionExecutionResult)
    (txs : List Transaction)
    (c : StatusCache (Except TransactionError Unit)) : StatusCache (Except TransactionError Unit) :=
  txs.foldl (fun c tx => recordStatus cfg c tx (executed tx)) c

theorem updateTransactionStatuses_eq (h : IteratesAs txs order ordered)
    (executed : Transaction → TransactionExecutionResult) :
    b.updateTransactionStatuses cfg txs order (ordered.map executed)
      = .ok (recordAll cfg executed ordered b.statusCache) := by
  obtain ⟨items, hitems, rfl⟩ := h
  rw [updateTransactionStatuses, hitems, ok_bind,
    foldlM_zipIdx_index (fun c (item : Nat × Transaction) r => recordStatus cfg c item.2 r)
      (by simp), map_map]
  rw [recordAll, foldl_map, zip_map_self, foldl_map]
  rfl

theorem storeAccounts_eq (h : IteratesAs txs order ordered)
    (loaded : Transaction → TransactionLoadResult)
    (executed : Transaction → TransactionExecutionResult) :
    b.storeAccounts cfg txs order (ordered.map executed) (ordered.map loaded)
      = (ordered.mapM fun tx => b.collectOf cfg tx (loaded tx) (executed tx)) >>= fun stored =>
        .ok (b.accounts.setAll (stored.flatMap Prod.fst), stored.map Prod.snd) := by
  obtain ⟨items, hitems, rfl⟩ := h
  rw [storeAccounts, hitems, ok_bind,
    mapM_zipIdx_index
      (fun (p : TransactionLoadResult × Nat × Transaction) r => b.collectOf cfg p.2.2 p.1 r)
        (by simp),
    map_map, map_map, map_zip_self, zip_map', mapM_map, mapM_map]
  rfl

/-- The part of a bank that `commitTransactions` is about. -/
def ledger (b : WorkingBank) : Bank := ⟨b.accounts, b.collectedRent, b.collectorFees⟩

/-- Fees do not depend on the accounts. -/
theorem filterProgramErrorsAndCollectFee_executedOf (env : BankEnv) (l : BankLedger)
    (loaded : Transaction → TransactionLoadResult)
    (executed : Transaction → TransactionExecutionResult) (txs : List Transaction) :
    filterProgramErrorsAndCollectFee env l (txs.map fun tx => executedOf tx (executed tx))
      = filterProgramErrorsAndCollectFee env l
        (txs.map fun tx => executionOf tx (loaded tx) (executed tx)) := by
  induction txs generalizing l with
  | nil => rfl
  | cons tx txs ih =>
    simp only [map_cons, filterProgramErrorsAndCollectFee, ih]
    rfl

def committed (cfg : BankConfig) (b : WorkingBank) (maxAge : Nat)
    (lockResult : Transaction → LockResult)
    (ordered : List Transaction) (locks : LockState) (ledger : Bank) : WorkingBank :=
  { b with
    accounts := ledger.accounts
    locks
    collectedRent := ledger.collectedRent
    collectorFees := ledger.collectorFees
    statusCache := recordAll cfg
      (fun tx => (b.outcomeOf cfg maxAge tx (lockResult tx)).2) ordered b.statusCache
    transactionCount := (b.transactionCount
      + ordered.countP fun tx => (b.outcomeOf cfg maxAge tx (lockResult tx)).2.1.toBool) % U64
    signatureCount := (b.signatureCount + (ordered.map fun tx =>
      signaturesOf tx (b.loadOf cfg tx (b.checkOf cfg maxAge tx (lockResult tx)))).sum) % U64
    isDelta := b.isDelta || ordered.any fun tx =>
      canCommit (b.outcomeOf cfg maxAge tx (lockResult tx)).2.1 }

/-- **A batch is committed as its entries are**, each of its vectors being in the iteration
order. -/
theorem loadExecuteAndCommitTransactions_eq (h : IteratesAs txs order ordered)
    (hlen : ordered.length = txs.length) :
    b.loadExecuteAndCommitTransactions cfg txs order (ordered.map lockResult) maxAge
      = (assert (b.freezeStarted = false) >>= fun _ => b.lastBlockhashWithFeeCalculator >>= fun _ =>
        commitTransactions (b.env cfg) b.ledger
          (ordered.map fun tx => b.entryOf cfg maxAge tx (lockResult tx)) >>=
          fun r => .ok (b.committed cfg maxAge lockResult ordered b.locks r.1,
            ⟨r.2, ordered.map fun tx => (b.outcomeOf cfg maxAge tx (lockResult tx)).2⟩)) := by
  rw [loadExecuteAndCommitTransactions, loadAndExecuteTransactions_eq h hlen, ok_bind]
  unfold commitBatch
  obtain ⟨loaded, hloaded⟩ : ∃ loaded : Transaction → TransactionLoadResult,
      loaded = fun tx => (b.outcomeOf cfg maxAge tx (lockResult tx)).1 := ⟨_, rfl⟩
  obtain ⟨executed, hexecuted⟩ : ∃ executed : Transaction → TransactionExecutionResult,
      executed = fun tx => (b.outcomeOf cfg maxAge tx (lockResult tx)).2 := ⟨_, rfl⟩
  have hexec :
      (ordered.map fun tx => b.entryOf cfg maxAge tx (lockResult tx)).map
        (execute (b.env cfg) b.accounts)
      = ordered.map fun tx => executionOf tx (loaded tx) (executed tx) := by
    rw [map_map, hloaded, hexecuted]
    exact map_congr_left fun tx _ => execute_entryOf tx (lockResult tx)
  simp only [← hloaded, ← hexecuted]
  rw [storeAccounts_eq h]
  simp only [collectOf_eq, mapM_bind_ok]
  unfold commitTransactions ledger
  simp only [hexec, mapM_map]
  cases hstored :
    ordered.mapM (fun tx => (executionOf tx (loaded tx) (executed tx)).store (b.env cfg)) with
  | error e =>
    have hstored' :
        ordered.mapM (Executed.store (b.env cfg) ∘ fun tx =>
          executionOf tx (loaded tx) (executed tx))
        = .error e := hstored
    rw [hstored']
    rfl
  | ok stored =>
    have hstored' :
        ordered.mapM (Executed.store (b.env cfg) ∘ fun tx =>
          executionOf tx (loaded tx) (executed tx))
        = .ok stored := hstored
    have hlength := (mapM_eq_ok hstored).length_eq
    have hwrites :
        (List.zipWith
          (fun tx (s : List (Pubkey × BankAccount) × Nat) => (s.1, withRent (loaded tx) s.2))
        ordered stored).flatMap Prod.fst = stored.flatMap Prod.fst := by
      rw [flatMap_def, flatMap_def, map_zipWith, zipWith_right Prod.fst hlength]
    have hloads :
        (List.zipWith
          (fun tx (s : List (Pubkey × BankAccount) × Nat) => (s.1, withRent (loaded tx) s.2))
        ordered stored).map Prod.snd = List.zipWith
          (fun tx s => withRent (loaded tx) s.2) ordered stored := by
      rw [map_zipWith]
    have hrents : collectRent (ordered.map executed)
        (List.zipWith
          (fun tx (s : List (Pubkey × BankAccount) × Nat) => withRent (loaded tx) s.2) ordered
            stored)
        = .ok (((ordered.map fun tx => executionOf tx (loaded tx) (executed tx)).zip stored).map
          fun p => p.1.countedRent p.2.2).sum := by
      rw [collectRent,
        mapM_zipIdx_index (fun loaded result => .ok (rentOf loaded result)) (by simp [hlength]),
        mapM_eq_map (fun _ _ => rfl), map_zip_zipWith,
        map_zip_map
          (fun (x : Executed) (s : List (Pubkey × BankAccount) × Nat) => x.countedRent s.2)]
      refine congrArg (fun f => Except.ok (List.zipWith f ordered stored).sum) ?_
      exact funext fun tx => funext fun s => rentOf_withRent tx _ _ _
    rw [hstored']
    simp only [ok_bind, hwrites, hloads, hrents, updateTransactionStatuses_eq h, zipOrdered_map h,
      filterProgramErrorsAndCollectFee_executedOf (b.env cfg) _ loaded executed]
    simp only [hexecuted, any_map]
    rfl

end Items

/-! ## Any order -/

theorem recordStatus_congr (cfg : BankConfig) {c c' : StatusCache (Except TransactionError Unit)}
    (h : c.SameUpToOrder c') (tx : Transaction) (result : TransactionExecutionResult) :
    (recordStatus cfg c tx result).SameUpToOrder (recordStatus cfg c' tx result) := by
  unfold recordStatus
  split
  · exact h
  · split
    · exact StatusCache.insert_congr _ h _ _ _ _
    · exact h

theorem recordStatus_swap (cfg : BankConfig) (c : StatusCache (Except TransactionError Unit))
    (tx tx' : Transaction) (result result' : TransactionExecutionResult) :
    (recordStatus cfg (recordStatus cfg c tx result) tx' result').SameUpToOrder
      (recordStatus cfg (recordStatus cfg c tx' result') tx result) := by
  unfold recordStatus
  cases tx.signatures with
  | nil => exact .refl _
  | cons =>
    cases tx'.signatures with
    | nil => exact .refl _
    | cons =>
      by_cases hc : canCommit result.1 = true
      · by_cases hc' : canCommit result'.1 = true
        · simp only [if_pos hc, if_pos hc']
          exact StatusCache.insert_swap _ _ _ _ _ _ _ _ _
        · simp only [if_neg hc']
          exact .refl _
      · simp only [if_neg hc]
        exact .refl _

theorem recordAll_perm (cfg : BankConfig) (executed : Transaction → TransactionExecutionResult)
    {txs txs' : List Transaction} (hperm : txs.Perm txs')
    (c : StatusCache (Except TransactionError Unit)) :
    (recordAll cfg executed txs c).SameUpToOrder (recordAll cfg executed txs' c) :=
  foldl_perm StatusCache.SameUpToOrder.refl (fun _ _ _ => StatusCache.SameUpToOrder.trans)
    (fun _ _ tx h => recordStatus_congr cfg h tx (executed tx))
    (fun c tx tx' => recordStatus_swap cfg c tx tx' (executed tx) (executed tx')) hperm (.refl c)

theorem outcomeOf_error (tx : Transaction) (e : TransactionError) :
    (b.outcomeOf cfg maxAge tx (.error e)).2 = (.error e, none) := by
  have hcheck : b.checkOf cfg maxAge tx (.error e) = (.error e, none) := by
    have hsig : b.checkSignaturesOf cfg tx (.error e, none) = (.error e, none) := by
      unfold checkSignaturesOf
      split
      · rfl
      · exact if_neg fun h => by cases h.1
    unfold checkOf
    dsimp only [checkAgeOf]
    rw [hsig]
    split
    · rfl
    · rfl
  rw [outcomeOf, hcheck]
  rfl

/-- The payer of a fee that is withdrawn is locked for writing. -/
theorem payer_writable {held : List Transaction} {tx : Transaction}
    (h : (execute (b.env cfg) b.accounts (b.entryOf cfg maxAge tx (lockResultOf held tx))).withdraws
      = true) :
    tx.message.key 0 ∈ tx.message.writableKeys := by
  rw [execute_entryOf] at h
  unfold lockResultOf lockKeys at h
  split at h
  · rename_i e herror
    rw [outcomeOf_error] at h
    split at herror
    · cases herror
      cases h
    · split at herror
      · cases herror
        cases h
      · cases herror
  · rename_i hkeys
    obtain ⟨hsanitize, hkeys⟩ := ite_error_eq_ok.mp hkeys
    have hmessage : tx.message.sanitize = true := by
      rw [Bool.not_eq_false, Transaction.sanitize, Bool.and_eq_true] at hsanitize
      exact hsanitize.2
    exact Message.mem_writableKeys.mpr
      ⟨0, Message.accountKeys_length_pos hmessage, Message.isWritable_zero hmessage, rfl⟩

def TransactionResults.byPosition (r : TransactionResults) (n : Nat) (order : Option (List Nat)) :
    List (Nat × TransactionExecutionResult × Except TransactionError Unit) :=
  (positions n order).zip (r.executionResults.zip r.feeCollectionResults)

variable {b₁ : WorkingBank} {r₁ : TransactionResults} {txs : List Transaction}
  {order order' : Option (List Nat)} {held : List Transaction}

/-- A batch that is prepared and processed, as its entries are committed. -/
theorem processBatch_eq (cfg : BankConfig) (maxAge : Nat) (hlocks : b.locks.Matches held)
    (hfree : txs.Pairwise fun a c => ¬ Conflict a c) (horder : IsPermutation txs.length order) :
    ∃ (items : List (Nat × Transaction)) (locks : LockState),
      items.Perm (txs.zipIdx.map Prod.swap) ∧ items.map Prod.fst = positions txs.length order ∧
      b.processBatch cfg txs order maxAge
        = (assert (b.freezeStarted = false) >>= fun _ =>
          b.lastBlockhashWithFeeCalculator >>= fun _ =>
          commitTransactions (b.env cfg) b.ledger ((items.map Prod.snd).map fun tx =>
            b.entryOf cfg maxAge tx (lockResultOf held tx)) >>=
            fun r => .ok (b.committed cfg maxAge (lockResultOf held) (items.map Prod.snd) locks r.1,
              ⟨r.2, (items.map Prod.snd).map fun tx =>
                (b.outcomeOf cfg maxAge tx (lockResultOf held tx)).2⟩)) := by
  obtain ⟨items, hitems, hpositions, hperm⟩ := orderedIterator_of_isPermutation horder
  have hordered : (items.map Prod.snd).Perm txs := by
    refine (hperm.map Prod.snd).trans (List.Perm.of_eq ?_)
    rw [map_map]
    exact zipIdx_map_fst 0 txs
  have hfree' : (items.map Prod.snd).Pairwise fun a c => ¬ Conflict a c :=
    (hordered.pairwise_iff fun hac hca => hac (conflict_comm hca)).mpr hfree
  obtain ⟨locks, hlock⟩ :=
    lockTransactions_eq hfree' (show b.locks.Matches ([] ++ held) from hlocks) (by simp)
  refine ⟨items, locks, hperm, hpositions, ?_⟩
  have hlength : (items.map Prod.snd).length = txs.length := hordered.length_eq
  have hprepare : b.prepareBatch txs order
      = .ok ((items.map Prod.snd).map (lockResultOf held), { b with locks }) := by
    simp only [prepareBatch, lockAccounts, hitems, ok_bind, hlock]
    rw [assert_pos (by rw [length_map, hlength]), ok_bind]
  rw [processBatch, hprepare]
  exact loadExecuteAndCommitTransactions_eq ⟨items, hitems, rfl⟩ hlength

/-- **The result of a batch does not depend on the iteration order.**  The accounts, the collected
fees and rent, the counts, and the result of each transaction are the same, and so is the status
cache, up to the order of the lists it keeps. -/
theorem processBatch_any_order (hlocks : b.locks.Matches held)
    (hfree : txs.Pairwise fun a c => ¬ Conflict a c)
    (horder : IsPermutation txs.length order) (horder' : IsPermutation txs.length order')
    (hrun : b.processBatch cfg txs order maxAge = .ok (b₁, r₁)) :
    ∃ b₂ r₂, b.processBatch cfg txs order' maxAge = .ok (b₂, r₂) ∧
      b₂.accounts = b₁.accounts ∧ b₂.collectedRent = b₁.collectedRent ∧
        b₂.collectorFees = b₁.collectorFees ∧
      b₂.signatureCount = b₁.signatureCount ∧ b₂.transactionCount = b₁.transactionCount ∧
      b₁.statusCache.SameUpToOrder b₂.statusCache ∧
      (r₁.byPosition txs.length order).Perm (r₂.byPosition txs.length order') := by
  obtain ⟨items, locks, hperm, hpositions, heq⟩ := processBatch_eq cfg maxAge hlocks hfree horder
  obtain ⟨items', locks', hperm', hpositions', heq'⟩ :=
    processBatch_eq cfg maxAge hlocks hfree horder'
  have hitems : items.Perm items' := hperm.trans hperm'.symm
  have hordered : (items.map Prod.snd).Perm (items'.map Prod.snd) := hitems.map Prod.snd
  have hdisjoint :
      ((items.map Prod.snd).map fun tx => b.entryOf cfg maxAge tx (lockResultOf held tx)).Pairwise
      DisjointWrites := by
    refine pairwise_map.mpr ?_
    have htxs : (items.map Prod.snd).Perm txs := by
      refine (hperm.map Prod.snd).trans (List.Perm.of_eq ?_)
      rw [map_map]
      exact zipIdx_map_fst 0 txs
    refine ((htxs.pairwise_iff fun hac hca => hac (conflict_comm hca)).mpr hfree).imp ?_
    intro tx tx' hnot key hkey hkey'
    exact hnot ⟨key, .inl ⟨hkey, Message.mem_of_mem_writableKeys hkey'⟩⟩
  have hpayer : ∀ e ∈ (items.map Prod.snd).map fun tx =>
      b.entryOf cfg maxAge tx (lockResultOf held tx),
      (execute (b.env cfg) b.ledger.accounts e).withdraws = true →
        e.tx.message.key 0 ∈ e.tx.message.writableKeys := by
    intro e he
    obtain ⟨tx, -, rfl⟩ := mem_map.mp he
    exact payer_writable
  rw [heq] at hrun
  obtain ⟨⟨⟩, hopen, hrun⟩ := bind_eq_ok.mp hrun
  obtain ⟨last, hlast, hrun⟩ := bind_eq_ok.mp hrun
  obtain ⟨⟨ledger, fees⟩, hcommit, hrun⟩ := bind_eq_ok.mp hrun
  cases hrun
  obtain ⟨result, rfl, hany⟩ := commitTransactions_perm hdisjoint hpayer hcommit
  rw [hopen, hlast, hany _ (hordered.map _)] at heq'
  refine ⟨_, _, heq', rfl, rfl, rfl, ?_, ?_, recordAll_perm cfg _ hordered b.statusCache, ?_⟩
  · simp only [committed, (hordered.map _).sum_eq]
  · simp only [committed, hordered.countP_eq]
  · simp only [TransactionResults.byPosition, ← hpositions, ← hpositions', map_map, zip_map']
    exact hitems.map _

/-! ## Two transactions -/

/-- A bank of programs that do nothing. -/
def idleConfig : BankConfig where
  slot := 5
  ancestors := ∅
  rentCollector :=
    { epoch := 1, epochSchedule := .withoutWarmup 100 (by decide), slotsPerYear := .finite 100
      rent := Rent.default }
  instructionsSysvarEnabled := true
  secp256k1ProgramEnabled := true
  fixRecentBlockhashesSysvarDelay := true
  rentFixEnabled := true
  upgradeEpoch := false
  isSimpleVoteTransaction := fun _ => false
  keyIndex := fun _ => 0
  loaders := fun _ _ => .ok ()
  processMessage := fun _ _ accounts => (none, accounts)

/-- Accounts 1 and 3 can pay. -/
def idleBank : WorkingBank where
  accounts := Ledger.setAll ∅
    [(1, ⟨1000000, ⟨0, .zeroed⟩, SYSTEM_PROGRAM_ID, false, 1⟩),
      (3, ⟨1000000, ⟨0, .zeroed⟩, SYSTEM_PROGRAM_ID, false, 1⟩)]
  collectedRent := 0
  collectorFees := 0
  locks := .new
  blockhashQueue := (BlockhashQueue.new 300).genesisHash 7 5000
  statusCache := .new
  transactionCount := 0
  signatureCount := 0
  isDelta := false
  freezeStarted := false

/-- A transaction that an account pays and signs, and that calls program 2. -/
def idleTransaction (payer : Pubkey) (signature : Signature) : Transaction :=
  ⟨[signature], ⟨⟨1, 0, 1⟩, [payer, 2], 7, [⟨1, [0], []⟩]⟩⟩

def idleBatch : List Transaction := [idleTransaction 1 (1 <<< 500), idleTransaction 3 (3 <<< 500)]

theorem idleBank_matches : idleBank.locks.Matches [] := LockSystem.inv_new.locks

theorem idleBatch_free : idleBatch.Pairwise fun a c => ¬ Conflict a c := by decide +kernel

/-- Both orders charge both payers. -/
theorem processBatch_any_order_idle :
    ∃ b₁ r₁ b₂ r₂, idleBank.processBatch idleConfig idleBatch (some [0, 1]) 150 = .ok (b₁, r₁) ∧
      idleBank.processBatch idleConfig idleBatch (some [1, 0]) 150 = .ok (b₂, r₂) ∧
      b₂.accounts = b₁.accounts ∧ b₁.collectorFees = 10000 := by
  have hrun : (idleBank.processBatch idleConfig idleBatch (some [0, 1]) 150).toOption.map
      (fun r => r.1.collectorFees) = some 10000 := by decide +kernel
  cases h : idleBank.processBatch idleConfig idleBatch (some [0, 1]) 150 with
  | error =>
    rw [h] at hrun
    cases hrun
  | ok r =>
    rw [h] at hrun
    obtain ⟨b₂, r₂, h₂, haccounts, -⟩ := processBatch_any_order idleBank_matches idleBatch_free
      (show IsPermutation idleBatch.length (some [0, 1]) by decide)
      (show IsPermutation idleBatch.length (some [1, 0]) by decide) h
    exact ⟨r.1, r.2, b₂, r₂, rfl, h₂, haccounts, Option.some.inj hrun⟩

/-- The programs, except that they fail for payer 3. -/
def failingConfig : BankConfig :=
  { idleConfig with
    processMessage := fun _ message accounts =>
      (if message.key 0 = 3 then some (0, .genericError) else none, accounts) }

/-- The two signatures have one slice. -/
def twinBatch : List Transaction :=
  [idleTransaction 1 (1 <<< 500), idleTransaction 3 (1 <<< 500 + 1)]

/-- The status that is found for the first signature after the batch. -/
def statusAfter (order : List Nat) : Option (Option (Nat × Except TransactionError Unit)) :=
  (idleBank.processBatch failingConfig twinBatch (some order) 150).toOption.map fun r =>
    r.1.statusCache.getSignatureStatus (1 <<< 500) 7 {5}

/-- **The lists of the status cache are in the order of the iteration**, and the first entry of a
list is the status that is found. -/
theorem statusCache_keeps_order :
    (twinBatch.Pairwise fun a c => ¬ Conflict a c) ∧
      statusAfter [0, 1] = some (some (5, .ok ())) ∧
      statusAfter [1, 0] = some (some (5, .error (.instructionError 0 .genericError))) := by
  decide +kernel

end WorkingBank

end Panoptes.Runtime
