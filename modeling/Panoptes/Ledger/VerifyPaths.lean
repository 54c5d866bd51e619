import Panoptes.Ledger.Entry

/-!
# The paths that verify proof of history

`ledger/src/entry.rs` verifies the hashes of a slice of entries in three ways: entry by entry on the
CPU (`verify_cpu_generic`), in chunks with vector instructions (`verify_cpu_x86_simd`) and on the
GPU (`start_verify` and `finish_verify`).  The kernels replace each hash by the result of hashing it
a given number of times; the last hash of an entry is left to `compare_hashes` or `finish_verify`.

The entries are checked in parallel, and which check is seen first is not fixed: `ParAll` says what
may come out.

Principal results:

* `verifyCpuX86Simd_iff`, `finishVerify_iff` — the chunks and their padding do not matter: both
  kernels check every entry once, by `compareHashes`.
* `verdicts_agree_iff` — which entries make the three paths differ; none whose transactions come
  after at least one and less than `u64::MAX` hashes and verify.
-/

set_option autoImplicit false

namespace Panoptes.Ledger

open Lib Sdk List

/-! ## Checks in parallel -/

/-- What `par_iter().all(..)` may end with: `true` when all checks are, `false` when some check is,
    and an abort when some check aborts, whichever is seen first. -/
inductive ParAll (checks : List (Except Panic Bool)) : Except Panic Bool → Prop where
  | all (h : ∀ r ∈ checks, r = .ok true) : ParAll checks (.ok true)
  | some (h : .ok false ∈ checks) : ParAll checks (.ok false)
  | abort {p : Panic} (h : .error p ∈ checks) : ParAll checks (.error p)

namespace ParAll

variable {checks : List (Except Panic Bool)} {v : Except Panic Bool}

theorem iff_of_ok {bs : List Bool} (h : checks = bs.map .ok) :
    ParAll checks v ↔ v = .ok (bs.all id) := by
  subst h
  constructor
  · rintro (hall | hsome | habort)
    · congr
      refine (all_eq_true.mpr fun b hb => ?_).symm
      exact Except.ok.inj (hall _ (mem_map_of_mem hb))
    · congr
      obtain ⟨b, hb, hfalse⟩ := mem_map.mp hsome
      exact (all_eq_false.mpr ⟨b, hb, by simp [Except.ok.inj hfalse]⟩).symm
    · obtain ⟨b, -, hb⟩ := mem_map.mp habort
      cases hb
  · rintro rfl
    by_cases hall : bs.all id = true
    · rw [hall]
      refine .all fun r hr => ?_
      obtain ⟨b, hb, rfl⟩ := mem_map.mp hr
      exact congrArg Except.ok (all_eq_true.mp hall b hb)
    · rw [Bool.not_eq_true] at hall
      rw [hall]
      obtain ⟨b, hb, hfalse⟩ := all_eq_false.mp hall
      refine .some (mem_map.mpr ⟨b, hb, ?_⟩)
      rw [Bool.not_eq_true] at hfalse
      exact congrArg Except.ok hfalse

end ParAll

/-! ## The paths -/

section

variable {τ : Type} (H : PohHashes τ) (o : Overflow)

/-- The hash each entry starts from: `genesis.iter().chain(self)`. -/
def startHashes (start : Hash) (entries : List (Entry τ)) : List Hash :=
  start :: entries.map (·.hash)

def VerifyCpuGeneric (start : Hash) (entries : List (Entry τ)) : Except Panic Bool → Prop :=
  ParAll (List.zipWith (fun prev e => e.verify H o prev) (startHashes start entries) entries)

/-- `compare_hashes`: the last hash of an entry, after the kernel. -/
def compareHashes (computedHash : Hash) (refEntry : Entry τ) : Except Panic Bool :=
  if refEntry.numHashes = 0 then .ok (decide (computedHash = refEntry.hash))
  else do
    let poh ← Poh.new computedHash none
    if refEntry.transactions = [] then do
      let (_, entry) ← poh.tick H o
      let entry ← unwrap entry
      .ok (decide (entry.hash = refEntry.hash))
    else do
      let (_, entry) ← poh.record H o (H.hashTransactions refEntry.transactions)
      let entry ← unwrap entry
      .ok (decide (entry.hash = refEntry.hash))

/-- The kernels: each hash is replaced by the result of hashing it so often. -/
def pohVerifyMany (hashes : List Hash) (numHashes : List Nat) : List Hash :=
  List.zipWith (fun hash n => H.hash^[n] hash) hashes numHashes

section

variable (check : τ → Bool) (start : Hash) (entries : List (Entry τ)) (simdLen : Nat)

/-- `entries[start..end]`. -/
def slice {α : Type} (xs : List α) (first last : Nat) : Except Panic (List α) :=
  if first ≤ last ∧ last ≤ xs.length then .ok ((xs.drop first).take (last - first))
  else .error .indexOutOfBounds

/-- One chunk of `verify_cpu_x86_simd`. -/
def simdChunk (hashes : List Hash) (numHashes : List Nat) (entries : List (Entry τ)) (i : Nat) :
    Except Panic Bool :=
  if simdLen = 8 ∨ simdLen = 16 then do
    let chunk := pohVerifyMany H ((hashes.drop (i * simdLen)).take simdLen)
      ((numHashes.drop (i * simdLen)).take simdLen)
    let entryStart := i * simdLen
    -- The last chunk may reach beyond the entries.
    let entryEnd := min (entryStart + simdLen) entries.length
    let refEntries ← slice entries entryStart entryEnd
    refEntries.zipIdx.allM fun (refEntry, j) => do
      let hash ← index chunk j
      compareHashes H o hash refEntry
  else .error (.explicit "unsupported simd len")

/-- The length of the entries, padded to whole vectors. -/
def alignedLen : Nat :=
  (entries.length + simdLen - 1) / simdLen * simdLen

def VerifyCpuX86Simd : Except Panic Bool → Prop :=
  let padding := alignedLen entries simdLen - entries.length
  let hashes := (startHashes start entries).take entries.length ++ List.replicate padding 0
  let numHashes := entries.map (·.numHashes - 1) ++ List.replicate padding 0
  ParAll ((List.range (alignedLen entries simdLen / simdLen)).map
    (simdChunk H o simdLen hashes numHashes entries))

inductive EntryVerificationStatus where
  | failure
  | success
  | pending
  deriving DecidableEq

inductive DeviceVerificationData where
  | cpu
  | gpu (hashes : List Hash) (txHashes : List (Option Hash))

structure EntryVerificationState where
  verificationStatus : EntryVerificationStatus
  deviceVerificationData : DeviceVerificationData

def verifyTransactionSignatures : Bool :=
  (entries.flatMap (·.transactions)).all check

/-- `start_verify` with a GPU. -/
def startVerify : EntryVerificationState :=
  if verifyTransactionSignatures check entries = false then ⟨.failure, .cpu⟩
  else
    let hashes := (startHashes start entries).take entries.length
    let numHashes := entries.map (·.numHashes - 1)
    let txHashes := entries.map fun e =>
      if e.transactions = [] then none else some (H.hashTransactions e.transactions)
    ⟨.pending, .gpu (pohVerifyMany H hashes numHashes) txHashes⟩

end

/-- The check of one entry in `finish_verify`. -/
def finishCheck (hash : Hash) (txHash : Option Hash) (answer : Entry τ) : Except Panic Bool :=
  if answer.numHashes = 0 then .ok (decide (hash = answer.hash))
  else do
    let poh ← Poh.new hash none
    match txHash with
    | some mixin => do
      let (_, entry) ← poh.record H o mixin
      let entry ← unwrap entry
      .ok (decide (entry.hash = answer.hash))
    | none => do
      let (_, entry) ← poh.tick H o
      let entry ← unwrap entry
      .ok (decide (entry.hash = answer.hash))

def FinishVerify (state : EntryVerificationState) (entries : List (Entry τ)) :
    Except Panic Bool → Prop :=
  match state.deviceVerificationData with
  | .gpu hashes txHashes =>
    ParAll
      (List.zipWith (fun (hash, txHash) answer => finishCheck H o hash txHash answer)
        (hashes.zip txHashes)
      entries)
  | .cpu => fun v => v = .ok (decide (state.verificationStatus = .success))

end

/-! ## What each path checks -/

section

variable {τ : Type} {H : PohHashes τ} {o : Overflow}

/-- The hash of an entry after `prev`.  An entry with transactions and no hashes either mixes its
    transactions in, as `next_hash` does, or keeps the hash, as the kernels' paths do. -/
def stepHash (H : PohHashes τ) (mixZero : Bool) (prev : Hash) (e : Entry τ) : Hash :=
  if e.transactions = [] then H.hash^[e.numHashes] prev
  else if e.numHashes = 0 ∧ mixZero = false then prev
  else H.hashv (H.hash^[e.numHashes - 1] prev) (H.hashTransactions e.transactions)

/-- Every entry has the hash that follows from the one before it. -/
def Intact (H : PohHashes τ) (mixZero : Bool) (start : Hash) (entries : List (Entry τ)) : Bool :=
  (List.zipWith
    (fun prev e => decide (e.hash = stepHash H mixZero prev e))
      (startHashes start entries) entries).all id

theorem new_none (hash : Hash) : Poh.new hash none = .ok ⟨hash, 0, U64_MAX, U64_MAX⟩ := by
  have hlt : 1 < U64_MAX := by decide
  simp [Poh.new, assert_pos hlt, ok_bind]

theorem fresh_inv (hash : Hash) : Poh.Inv ⟨hash, 0, U64_MAX, U64_MAX⟩ := by
  refine ⟨?_, ?_, ?_, ?_⟩ <;> simp only [U64_MAX, U64] <;> omega

/-- **What the kernels' paths check of an entry.** -/
theorem compareHashes_eq (prev : Hash) (e : Entry τ) :
    compareHashes H o (H.hash^[e.numHashes - 1] prev) e =
      .ok (decide (e.hash = stepHash H false prev e)) := by
  unfold compareHashes stepHash
  by_cases hzero : e.numHashes = 0
  · rw [hzero]
    simp [eq_comm]
  · have hsucc : e.numHashes = e.numHashes - 1 + 1 := by omega
    rw [if_neg hzero, new_none, ok_bind]
    by_cases htxs : e.transactions = []
    · rw [if_pos htxs, if_pos htxs, Poh.tick_eq H o (fresh_inv _), if_neg (by simp), ok_bind]
      dsimp only
      rw [unwrap_some, ok_bind, ← Function.iterate_succ_apply' H.hash, Nat.succ_eq_add_one, ← hsucc]
      simp [eq_comm]
    · have hne : ¬ U64_MAX = 1 := by decide
      rw [if_neg htxs, if_neg htxs, if_neg (by simp [hzero]), Poh.record_eq H o (fresh_inv _),
        if_neg hne, ok_bind]
      dsimp only
      rw [unwrap_some, ok_bind]
      simp [eq_comm]

theorem finishCheck_eq (hash : Hash) (e : Entry τ) :
    finishCheck H o hash (if e.transactions = [] then none
      else some (H.hashTransactions e.transactions)) e = compareHashes H o hash e := by
  unfold finishCheck compareHashes
  by_cases htxs : e.transactions = []
  · simp only [if_pos htxs]
  · simp only [if_neg htxs]

/-- **What `verify_cpu_generic` checks of an entry.** -/
theorem verify_eq {e : Entry τ} (hlt : e.numHashes < U64) (prev : Hash) :
    e.verify H o prev = if e.transactions ≠ [] ∧ e.numHashes = U64_MAX then .error .unwrapNone
      else .ok (decide (e.hash = stepHash H true prev e)) := by
  unfold Entry.verify stepHash
  rw [nextHash_eq prev hlt]
  by_cases htxs : e.transactions = []
  · rw [if_pos htxs, if_neg (by simp [htxs]), ok_bind, if_pos htxs]
  · rw [if_neg htxs]
    by_cases hmax : e.numHashes = U64_MAX
    · rw [if_pos hmax, if_pos ⟨htxs, hmax⟩]
      rfl
    · rw [if_neg hmax, if_neg (fun h => hmax h.2), ok_bind, if_neg htxs, if_neg (by simp)]

/-! ## Chunks and padding -/

theorem all_chunks {α : Type} (p : α → Bool) (k : Nat) (n : Nat) (l : List α)
    (hlen : l.length ≤ n * k) :
    ((List.range n).all fun i => ((l.drop (i * k)).take k).all p) = l.all p := by
  induction n generalizing l with
  | zero =>
    obtain rfl : l = [] := eq_nil_of_length_eq_zero (by omega)
    rfl
  | succ n ih =>
    have hrest := ih (l.drop k) (by rw [length_drop]; rw [Nat.succ_mul] at hlen; omega)
    have hshift : ∀ i, ((l.drop k).drop (i * k)) = l.drop ((i + 1) * k) := by
      intro i
      rw [drop_drop, Nat.succ_mul, Nat.add_comm]
    simp only [hshift] at hrest
    rw [range_succ_eq_map, all_cons, all_map, Nat.zero_mul, drop_zero]
    simp only [Function.comp_def]
    rw [hrest, ← all_append, take_append_drop]

section

variable (H : PohHashes τ) (prevs : List Hash) (entries : List (Entry τ))

def computed : List Hash :=
  List.zipWith (fun prev e => H.hash^[e.numHashes - 1] prev) prevs entries

def deviceChecks : List Bool :=
  List.zipWith (fun prev e => decide (e.hash = stepHash H false prev e)) prevs entries

end

theorem pohVerifyMany_eq (start : Hash) (entries : List (Entry τ)) :
    pohVerifyMany H ((startHashes start entries).take entries.length)
      (entries.map (·.numHashes - 1)) = computed H (startHashes start entries) entries := by
  have hlen : entries.length ≤ (startHashes start entries).length := by simp [startHashes]
  unfold pohVerifyMany computed
  generalize startHashes start entries = prevs at hlen
  induction entries generalizing prevs with
  | nil => simp
  | cons e entries ih =>
    cases prevs with
    | nil => simp at hlen
    | cons prev prevs =>
      simp only [length_cons, Nat.add_le_add_iff_right] at hlen
      simp only [length_cons, take_succ_cons, map_cons, zipWith_cons_cons, ih prevs hlen]

/-- The entries of a chunk, compared with the kernel's results at their places. -/
theorem allM_compareHashes (chunk : List Hash) (refEntries : List (Entry τ))
    (prevs tail : List Hash) (hlen : refEntries.length ≤ prevs.length) (n : Nat)
    (hchunk : chunk.drop n = computed H prevs refEntries ++ tail) :
    ((refEntries.zipIdx n).allM fun (refEntry, j) => do
      let hash ← index chunk j
      compareHashes H o hash refEntry) = .ok ((deviceChecks H prevs refEntries).all id) := by
  induction refEntries generalizing prevs n with
  | nil => simp [deviceChecks, pure, Except.pure]
  | cons e refEntries ih =>
    cases prevs with
    | nil => simp at hlen
    | cons prev prevs =>
      simp only [length_cons, Nat.add_le_add_iff_right] at hlen
      have hcons :
          chunk.drop n = H.hash^[e.numHashes - 1] prev :: (computed H prevs refEntries ++ tail) :=
            hchunk
      have hget : chunk[n]? = some (H.hash^[e.numHashes - 1] prev) := by
        rw [← head?_drop, hcons, head?_cons]
      have hdrop : chunk.drop (n + 1) = computed H prevs refEntries ++ tail := by
        rw [← tail_drop, hcons, tail_cons]
      have hindex : index chunk n = .ok (H.hash^[e.numHashes - 1] prev) := by
        rw [index, hget]
      rw [zipIdx_cons, List.allM]
      simp only [hindex, ok_bind, compareHashes_eq]
      cases hcheck : decide (e.hash = stepHash H false prev e) with
      | true =>
        rw [ih prevs hlen (n + 1) hdrop]
        simp [deviceChecks, hcheck]
      | false => simp [deviceChecks, hcheck, pure, Except.pure]

/-- **One chunk** checks its entries. -/
theorem simdChunk_eq {simdLen : Nat} (hsimd : simdLen = 8 ∨ simdLen = 16) (start : Hash)
    (entries : List (Entry τ)) {i : Nat} (hi : i * simdLen ≤ entries.length) (padding : List Hash)
    (padding' : List Nat) :
    simdChunk H o simdLen ((startHashes start entries).take entries.length ++ padding)
        (entries.map (·.numHashes - 1) ++ padding') entries i =
      .ok ((((deviceChecks H (startHashes start entries) entries).drop (i * simdLen)).take
        simdLen).all id) := by
  have hprevs : (startHashes start entries).length = entries.length + 1 := by simp [startHashes]
  have hslice : slice entries (i * simdLen) (min (i * simdLen + simdLen) entries.length) =
      .ok ((entries.drop (i * simdLen)).take simdLen) := by
    rw [slice, if_pos ⟨by omega, by omega⟩]
    rcases Nat.le_total (i * simdLen + simdLen) entries.length with hle | hle
    · rw [Nat.min_eq_left hle, Nat.add_sub_cancel_left]
    · rw [Nat.min_eq_right hle, take_of_length_le (by simp), take_of_length_le (by simp; omega)]
  have hchunk : pohVerifyMany H
      ((((startHashes start entries).take entries.length ++ padding).drop (i * simdLen)).take
        simdLen)
      (((entries.map (fun e : Entry τ => e.numHashes - 1) ++ padding').drop (i * simdLen)).take
        simdLen) =
      ((computed H (startHashes start entries) entries ++ pohVerifyMany H padding padding').drop
        (i * simdLen)).take simdLen := by
    rw [← pohVerifyMany_eq]
    unfold pohVerifyMany
    rw [← take_zipWith, ← drop_zipWith, zipWith_append (by simp [hprevs])]
  have hcomputed :
      ((computed H (startHashes start entries) entries).drop (i * simdLen)).take simdLen =
      computed H (((startHashes start entries).drop (i * simdLen)).take simdLen)
        ((entries.drop (i * simdLen)).take simdLen) := by
    unfold computed
    rw [drop_zipWith, take_zipWith]
  have hchecks :
      ((deviceChecks H (startHashes start entries) entries).drop (i * simdLen)).take simdLen =
      deviceChecks H (((startHashes start entries).drop (i * simdLen)).take simdLen)
        ((entries.drop (i * simdLen)).take simdLen) := by
    unfold deviceChecks
    rw [drop_zipWith, take_zipWith]
  rw [simdChunk, if_pos hsimd]
  dsimp only
  rw [hslice, hchunk, drop_append, take_append, hcomputed, hchecks]
  refine allM_compareHashes _ _ _ _ ?_ 0 drop_zero
  simp only [length_take, length_drop]
  omega

/-- **The vector path** checks every entry once, whatever the padding. -/
theorem verifyCpuX86Simd_iff {simdLen : Nat} (hsimd : simdLen = 8 ∨ simdLen = 16) (start : Hash)
    (entries : List (Entry τ)) (v : Except Panic Bool) :
    VerifyCpuX86Simd H o start entries simdLen v ↔ v = .ok (Intact H false start entries) := by
  have hlen : (deviceChecks H (startHashes start entries) entries).length = entries.length := by
    simp [deviceChecks, startHashes]
  have hcover : entries.length ≤ alignedLen entries simdLen / simdLen * simdLen := by
    unfold alignedLen
    rcases hsimd with rfl | rfl <;> omega
  have hchunks : ((List.range (alignedLen entries simdLen / simdLen)).map
      (simdChunk H o simdLen ((startHashes start entries).take entries.length ++
          List.replicate (alignedLen entries simdLen - entries.length) 0)
        (entries.map (fun e => e.numHashes - 1) ++
          List.replicate (alignedLen entries simdLen - entries.length) 0) entries)) =
      ((List.range (alignedLen entries simdLen / simdLen)).map fun i =>
        (((deviceChecks H (startHashes start entries) entries).drop (i * simdLen)).take simdLen).all
          id).map .ok := by
    rw [map_map]
    refine map_congr_left fun i hi => ?_
    refine simdChunk_eq hsimd start entries ?_ _ _
    have hi := mem_range.mp hi
    unfold alignedLen at hi
    rcases hsimd with rfl | rfl <;> omega
  unfold VerifyCpuX86Simd
  rw [ParAll.iff_of_ok hchunks, all_map]
  simp only [Function.comp_def, id_eq]
  rw [all_chunks id simdLen _ _ (by rw [hlen]; exact hcover)]
  rfl

theorem gpuChecks_eq (prevs : List Hash) (entries : List (Entry τ)) :
    List.zipWith (fun (x : Hash × Option Hash) answer => finishCheck H o x.1 x.2 answer)
        ((computed H prevs entries).zip (entries.map fun e =>
          if e.transactions = [] then none else some (H.hashTransactions e.transactions))) entries =
      (deviceChecks H prevs entries).map .ok := by
  induction entries generalizing prevs with
  | nil => simp [deviceChecks]
  | cons e entries ih =>
    cases prevs with
    | nil => simp [computed, deviceChecks]
    | cons prev prevs =>
      have hrest := ih prevs
      unfold computed deviceChecks at hrest ⊢
      simp only [zipWith_cons_cons, map_cons, zip_cons_cons, finishCheck_eq,
        compareHashes_eq, hrest]

/-- **The GPU path** checks the transactions' signatures and every entry once. -/
theorem finishVerify_iff (check : τ → Bool) (start : Hash) (entries : List (Entry τ))
    (v : Except Panic Bool) : FinishVerify H o (startVerify H check start entries) entries v ↔
      v = .ok (verifyTransactionSignatures check entries && Intact H false start entries) := by
  unfold startVerify
  cases hsigs : verifyTransactionSignatures check entries with
  | false => simp [FinishVerify]
  | true =>
    dsimp only
    rw [pohVerifyMany_eq]
    exact ParAll.iff_of_ok (gpuChecks_eq _ _)

/-! ## When the paths agree -/

/-- `record` has a hash left for the transactions of an entry. -/
def NoFullRecord (entries : List (Entry τ)) : Prop :=
  ∀ e ∈ entries, e.transactions ≠ [] → e.numHashes ≠ U64_MAX

instance (entries : List (Entry τ)) : Decidable (NoFullRecord entries) :=
  inferInstanceAs (Decidable (∀ e ∈ entries, e.transactions ≠ [] → e.numHashes ≠ U64_MAX))

theorem verifyCpuGeneric_iff {entries : List (Entry τ)} (hlt : ∀ e ∈ entries, e.numHashes < U64)
    (hfull : NoFullRecord entries) (start : Hash) (v : Except Panic Bool) :
    VerifyCpuGeneric H o start entries v ↔ v = .ok (Intact H true start entries) := by
  refine ParAll.iff_of_ok ?_
  generalize startHashes start entries = prevs
  induction entries generalizing prevs with
  | nil => simp
  | cons e entries ih =>
    cases prevs with
    | nil => simp
    | cons prev prevs =>
      obtain ⟨hlt₁, hlt⟩ := forall_mem_cons.mp hlt
      obtain ⟨hfull₁, hfull⟩ := forall_mem_cons.mp hfull
      rw [zipWith_cons_cons, verify_eq hlt₁, if_neg fun h => hfull₁ h.1 h.2, ih hlt hfull,
        zipWith_cons_cons,
        map_cons]

/-- Transactions after `u64::MAX` hashes may abort `verify_cpu_generic`. -/
theorem verifyCpuGeneric_abort {entries : List (Entry τ)} (hlt : ∀ e ∈ entries, e.numHashes < U64)
    (hfull : ¬ NoFullRecord entries) (start : Hash) :
    VerifyCpuGeneric H o start entries (.error .unwrapNone) := by
  unfold NoFullRecord at hfull
  push Not at hfull
  obtain ⟨e, he, htxs, hmax⟩ := hfull
  obtain ⟨i, hi, rfl⟩ := getElem_of_mem he
  refine .abort (mem_iff_getElem.mpr ⟨i, by simp [startHashes]; omega, ?_⟩)
  rw [getElem_zipWith, verify_eq (hlt _ (getElem_mem hi)), if_pos ⟨htxs, hmax⟩]

/-- What the three paths may return for some entries. -/
def Verdicts (H : PohHashes τ) (o : Overflow) (check : τ → Bool) (start : Hash)
    (entries : List (Entry τ)) (v : Except Panic Bool) : Prop :=
  VerifyCpuGeneric H o start entries v ∨ VerifyCpuX86Simd H o start entries 8 v ∨
    VerifyCpuX86Simd H o start entries 16 v ∨
      FinishVerify H o (startVerify H check start entries) entries v

/-- Transactions that come after no hash. -/
def Unhashed (e : Entry τ) : Prop := e.transactions ≠ [] ∧ e.numHashes = 0

/-- The entries, each with the hash it starts from. -/
def links (start : Hash) (entries : List (Entry τ)) : List (Hash × Entry τ) :=
  (startHashes start entries).zip entries

section

variable (H : PohHashes τ) (start : Hash) (entries : List (Entry τ))

/-- Every entry that is not `Unhashed` has the hash that follows from the one before it. -/
def Follows : Prop :=
  ∀ link ∈ links start entries, ¬ Unhashed link.2 → link.2.hash = stepHash H true link.1 link.2

/-- Every `Unhashed` entry has the hash of the one before it with its transactions mixed in. -/
def Mixed : Prop := ∀ link ∈ links start entries, Unhashed link.2 →
  link.2.hash = H.hashv link.1 (H.hashTransactions link.2.transactions)

/-- Every `Unhashed` entry has the hash of the one before it. -/
def Kept : Prop := ∀ link ∈ links start entries, Unhashed link.2 → link.2.hash = link.1

end

theorem intact_iff (mixZero : Bool) (start : Hash) (entries : List (Entry τ)) :
    Intact H mixZero start entries = true ↔
      ∀ link ∈ links start entries, link.2.hash = stepHash H mixZero link.1 link.2 := by
  unfold Intact links
  rw [← map_uncurry_zip_eq_zipWith, all_map, all_eq_true]
  exact forall₂_congr fun link _ => decide_eq_true_iff

/-- The two readings differ in the entries whose transactions come after no hash. -/
theorem stepHash_eq (mixZero : Bool) (prev : Hash) (e : Entry τ) :
    (Unhashed e → stepHash H mixZero prev e =
        if mixZero then H.hashv prev (H.hashTransactions e.transactions) else prev) ∧
      (¬ Unhashed e → stepHash H mixZero prev e = stepHash H true prev e) := by
  unfold stepHash Unhashed
  refine ⟨fun h => ?_, fun h => ?_⟩
  · rw [if_neg h.1, h.2]
    cases mixZero <;> rfl
  · by_cases htxs : e.transactions = []
    · rw [if_pos htxs, if_pos htxs]
    · have hpos : e.numHashes ≠ 0 := fun hzero => h ⟨htxs, hzero⟩
      simp only [if_neg htxs, hpos, false_and, if_false]

theorem intact_true_iff (start : Hash) (entries : List (Entry τ)) :
    Intact H true start entries = true ↔ Follows H start entries ∧ Mixed H start entries := by
  rw [intact_iff]
  refine ⟨fun h => ⟨fun link hlink _ => h link hlink, fun link hlink hbare => ?_⟩,
    fun h link hlink => ?_⟩
  · exact (h link hlink).trans ((stepHash_eq true _ _).1 hbare)
  · by_cases hbare : Unhashed link.2
    · exact (h.2 link hlink hbare).trans ((stepHash_eq true _ _).1 hbare).symm
    · exact h.1 link hlink hbare

theorem intact_false_iff (start : Hash) (entries : List (Entry τ)) :
    Intact H false start entries = true ↔ Follows H start entries ∧ Kept start entries := by
  rw [intact_iff]
  refine ⟨fun h => ⟨fun link hlink hnot => ?_, fun link hlink hbare => ?_⟩, fun h link hlink => ?_⟩
  · exact (h link hlink).trans ((stepHash_eq false _ _).2 hnot)
  · exact (h link hlink).trans ((stepHash_eq false _ _).1 hbare)
  · by_cases hbare : Unhashed link.2
    · exact (h.2 link hlink hbare).trans ((stepHash_eq false _ _).1 hbare).symm
    · exact (h.1 link hlink hbare).trans ((stepHash_eq false _ _).2 hbare).symm

/-- The paths agree if no transactions come after `u64::MAX` hashes and their three conditions are
one. -/
theorem agree_iff (check : τ → Bool) (start : Hash) {entries : List (Entry τ)}
    (hlt : ∀ e ∈ entries, e.numHashes < U64) :
    (∃ verdict, ∀ v, Verdicts H o check start entries v → v = .ok verdict) ↔
      NoFullRecord entries ∧ Intact H true start entries = Intact H false start entries ∧
        (Intact H false start entries = true →
          verifyTransactionSignatures check entries = true) := by
  have hsimd :=
    verifyCpuX86Simd_iff (H := H) (o := o) (.inl rfl : (8 : Nat) = 8 ∨ 8 = 16) start entries
  have hsimd' :=
    verifyCpuX86Simd_iff (H := H) (o := o) (.inr rfl : (16 : Nat) = 8 ∨ 16 = 16) start entries
  have hgpu := finishVerify_iff (H := H) (o := o) check start entries
  constructor
  · rintro ⟨verdict, hagree⟩
    have hfull : NoFullRecord entries := by
      by_contra hfull
      cases hagree _ (.inl (verifyCpuGeneric_abort hlt hfull start))
    have hgeneric :=
      Except.ok.inj (hagree _ (.inl ((verifyCpuGeneric_iff hlt hfull start _).mpr rfl)))
    have hvector := Except.ok.inj (hagree _ (.inr (.inl ((hsimd _).mpr rfl))))
    have hdevice := Except.ok.inj (hagree _ (.inr (.inr (.inr ((hgpu _).mpr rfl)))))
    refine ⟨hfull, hgeneric.trans hvector.symm, fun hintact => ?_⟩
    rw [← hvector, hintact, Bool.and_true] at hdevice
    exact hdevice
  · rintro ⟨hfull, hsame, hsigs⟩
    have hgeneric := verifyCpuGeneric_iff (H := H) (o := o) hlt hfull start
    refine ⟨Intact H false start entries, ?_⟩
    rintro v (hv | hv | hv | hv)
    · rw [(hgeneric v).mp hv, hsame]
    · exact (hsimd v).mp hv
    · exact (hsimd' v).mp hv
    · rw [(hgpu v).mp hv]
      cases hintact : Intact H false start entries with
      | false => rw [Bool.and_false]
      | true => rw [hsigs hintact, Bool.and_true]

/-- **When the paths agree**: all of them return, and one verdict, exactly if no transactions come
    after `u64::MAX` hashes, and in a chain whose other entries follow, `Unhashed` entries that mix
    their transactions in also keep the hash and come with signatures that verify, and those that
    keep the hash also mix.  In particular the paths agree on all entries whose transactions come
    after at least one and less than `u64::MAX` hashes and verify. -/
theorem verdicts_agree_iff (H : PohHashes τ) (o : Overflow) (check : τ → Bool) (start : Hash)
    (entries : List (Entry τ)) (hlt : ∀ e ∈ entries, e.numHashes < U64) :
    ((∃ verdict, ∀ v, Verdicts H o check start entries v → v = .ok verdict) ↔
      NoFullRecord entries ∧ (Follows H start entries →
        (Mixed H start entries → Kept start entries ∧
          verifyTransactionSignatures check entries = true) ∧
        (Kept start entries → Mixed H start entries))) ∧
    ((∀ e ∈ entries, e.transactions ≠ [] → 0 < e.numHashes ∧ e.numHashes < U64_MAX) →
      verifyTransactionSignatures check entries = true →
      ∃ verdict, ∀ v, Verdicts H o check start entries v → v = .ok verdict) := by
  have hiff : (∃ verdict, ∀ v, Verdicts H o check start entries v → v = .ok verdict) ↔
      NoFullRecord entries ∧ (Follows H start entries →
        (Mixed H start entries → Kept start entries ∧
          verifyTransactionSignatures check entries = true) ∧
        (Kept start entries → Mixed H start entries)) := by
    rw [agree_iff check start hlt, Bool.eq_iff_iff, intact_true_iff, intact_false_iff]
    tauto
  refine ⟨hiff, fun hhashes hsigs =>
    hiff.mpr ⟨fun e he htxs => (hhashes e he htxs).2.ne, fun _ => ?_⟩⟩
  -- No entry is `Unhashed`.
  have hnone : ∀ link ∈ links start entries, ¬ Unhashed link.2 := fun link hlink hbare =>
    (hhashes link.2 (of_mem_zip hlink).2 hbare.1).1.ne' hbare.2
  exact ⟨fun _ => ⟨fun link hlink hbare => absurd hbare (hnone link hlink), hsigs⟩,
    fun _ link hlink hbare => absurd hbare (hnone link hlink)⟩

end

/-- Two hashes and a transaction, then a tick. -/
def recordAndTick : List (Entry Unit) := [⟨2, 9, [()]⟩, ⟨1, 10, []⟩]

theorem verdicts_agree_iff_recordAndTick :
    VerifyCpuGeneric countingHashes .wrapping 0 recordAndTick (.ok true) ∧
      ∀ v, Verdicts countingHashes .wrapping (fun _ => true) 0 recordAndTick v → v = .ok true := by
  have hgeneric : VerifyCpuGeneric countingHashes .wrapping 0 recordAndTick (.ok true) :=
    (verifyCpuGeneric_iff (by decide) (by decide) 0 _).mpr (by decide)
  obtain ⟨verdict, hagree⟩ :=
    (verdicts_agree_iff countingHashes .wrapping (fun _ => true) 0 recordAndTick
    (by decide)).2 (by decide) (by decide)
  refine ⟨hgeneric, fun v hv => ?_⟩
  rw [hagree v hv, ← hagree _ (.inl hgeneric)]

/-- Transactions with no hashes, mixed into the hash before them. -/
def zeroHashes : List (Entry Unit) := [⟨0, 8, [()]⟩]

/-- `verify_cpu_generic` accepts the entry, and the two other paths reject it. -/
theorem zero_hashes_verdicts :
    VerifyCpuGeneric countingHashes .wrapping 0 zeroHashes (.ok true) ∧
      VerifyCpuX86Simd countingHashes .wrapping 0 zeroHashes 8 (.ok false) ∧
      VerifyCpuX86Simd countingHashes .wrapping 0 zeroHashes 16 (.ok false) ∧
      FinishVerify countingHashes .wrapping (startVerify countingHashes
        (fun _ => true) 0 zeroHashes) zeroHashes (.ok false) := by
  refine ⟨(verifyCpuGeneric_iff (by decide) (by decide) 0 _).mpr (by decide),
    (verifyCpuX86Simd_iff (by decide) 0 zeroHashes _).mpr (by decide),
    (verifyCpuX86Simd_iff (by decide) 0 zeroHashes _).mpr (by decide),
    (finishVerify_iff _ 0 zeroHashes _).mpr (by decide)⟩

end Panoptes.Ledger
