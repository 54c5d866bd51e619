import Panoptes.Ledger.Poh

/-!
# Entries

`ledger/src/entry.rs`: a block is a list of entries, each a list of transactions (none for a tick)
with the hash of the proof of history at its end and the number of hashes since the entry before it.

* `nextHash`, `Entry.verify` — the hash an entry should have after the one before it.
* `verifyTickHashCount` — the hashes of each tick, counted over slices of a block.

Principal results:

* `nextHash_eq` — what `next_hash` computes; it aborts for transactions after `u64::MAX` hashes.
* `poh_accepted` — whatever calls a generator of proof of history gets, its entries are accepted:
  each verifies after the one before it, and the tick hash counts are right for every way to cut
  them into slices.
-/

set_option autoImplicit false

namespace Panoptes.Ledger

open Lib Sdk

structure Entry (τ : Type) where
  numHashes : Nat
  hash : Hash
  transactions : List τ
  deriving DecidableEq

section

variable {τ : Type} (H : PohHashes τ) (o : Overflow)

def nextHash (startHash : Hash) (numHashes : Nat) (transactions : List τ) : Except Panic Hash :=
  if numHashes = 0 ∧ transactions = [] then .ok startHash
  else do
    let poh ← Poh.new startHash none
    -- `saturating_sub`
    let (poh, _) ← poh.hashMany H o (numHashes - 1)
    if transactions = [] then do
      let (_, entry) ← poh.tick H o
      let entry ← unwrap entry
      .ok entry.hash
    else do
      let (_, entry) ← poh.record H o (H.hashTransactions transactions)
      let entry ← unwrap entry
      .ok entry.hash

namespace Entry

def isTick (e : Entry τ) : Bool := e.transactions.isEmpty

def verify (e : Entry τ) (startHash : Hash) : Except Panic Bool := do
  let refHash ← nextHash H o startHash e.numHashes e.transactions
  .ok (decide (e.hash = refHash))

end Entry

end

/-! ## Tick hash counts -/

/-- The loop of `verify_tick_hash_count`: the count carried on, and whether the entries are accepted
so far. -/
def tickHashLoop {τ : Type} (hashesPerTick : Nat) : Nat → List (Entry τ) → Nat × Bool
  | count, [] => (count, decide (count < hashesPerTick))
  | count, e :: entries =>
    -- `saturating_add`
    let count := min (count + e.numHashes) U64_MAX
    if e.isTick then
      if count ≠ hashesPerTick then (count, false) else tickHashLoop hashesPerTick 0 entries
    else tickHashLoop hashesPerTick count entries

/-- `verify_tick_hash_count`: the count carried to the next slice, and the verdict. -/
def verifyTickHashCount {τ : Type} (entries : List (Entry τ))
    (tickHashCount hashesPerTick : Nat) : Nat × Bool :=
  -- Zero hashes per tick turn the check off.
  if hashesPerTick = 0 then (tickHashCount, true)
    else tickHashLoop hashesPerTick tickHashCount entries

/-- Slices are verified one after another, each with the count the one before it left. -/
def verifySlices {τ : Type} (hashesPerTick : Nat) : Nat → List (List (Entry τ)) → Bool
  | _, [] => true
  | count, slice :: slices =>
    let (count, accepted) := verifyTickHashCount slice count hashesPerTick
    accepted && verifySlices hashesPerTick count slices

/-! ## The hash of the next entry -/

section

variable {τ : Type} {H : PohHashes τ} {o : Overflow}

/-- **What `next_hash` computes**: without transactions so many hashes; with transactions one hash
    less (none for a count of zero) and then the transactions mixed in, except after `u64::MAX`
    hashes, where no hash is left for the transactions and `unwrap` aborts. -/
theorem nextHash_eq (startHash : Hash) {numHashes : Nat} (hlt : numHashes < U64)
    (transactions : List τ) : nextHash H o startHash numHashes transactions =
      if transactions = [] then .ok (H.hash^[numHashes] startHash)
      else if numHashes = U64_MAX then .error .unwrapNone
      else .ok (H.hashv (H.hash^[numHashes - 1] startHash) (H.hashTransactions transactions)) := by
  obtain ⟨p, hnew, hinv, rfl, hnum, hper, hrem⟩ :=
    Poh.new_eq startHash (show ∀ n ∈ (none : Option Nat), 2 ≤ n ∧ n < U64 from nofun)
  have hper : p.hashesPerTick = U64_MAX := hper
  have hmax : U64_MAX = U64 - 1 := rfl
  have hbig : 2 ≤ U64_MAX := by decide
  have hdone : p.numDone (numHashes - 1) = numHashes - 1 := by
    unfold Poh.numDone
    omega
  by_cases hstill : numHashes = 0 ∧ transactions = []
  · obtain ⟨rfl, rfl⟩ := hstill
    simp [nextHash]
  · rw [nextHash, if_neg hstill, hnew, ok_bind, Poh.hashMany_eq H o hinv, ok_bind, hdone]
    have hleft : 0 < p.remainingHashes - (numHashes - 1) := by omega
    have hinv' : Poh.Inv { p with
        hash := H.hash^[numHashes - 1] p.hash
        numHashes := p.numHashes + (numHashes - 1)
        remainingHashes := p.remainingHashes - (numHashes - 1) } := by
      refine ⟨hleft, ?_, hinv.two_le, hinv.le_max⟩
      show p.numHashes + (numHashes - 1) + (p.remainingHashes - (numHashes - 1)) ≤ p.hashesPerTick
      omega
    dsimp only
    by_cases htxs : transactions = []
    · have hpos : numHashes ≠ 0 := fun h => hstill ⟨h, htxs⟩
      rw [if_pos htxs, if_pos htxs, Poh.tick_eq H o hinv', if_neg (by simp [hper]), ok_bind]
      rw [unwrap_some, ok_bind, ← Function.iterate_succ_apply' H.hash,
        show (numHashes - 1).succ = numHashes by omega]
    · rw [if_neg htxs, if_neg htxs, Poh.record_eq H o hinv']
      by_cases hfull : numHashes = U64_MAX
      · rw [if_pos hfull, if_pos (show p.remainingHashes - (numHashes - 1) = 1 by omega)]
        rfl
      · rw [if_neg hfull, if_neg (show ¬ p.remainingHashes - (numHashes - 1) = 1 by omega)]
        rfl

end

/-! ## Entries of a generator are accepted -/

section

variable {τ : Type} {H : PohHashes τ} {o : Overflow} {e : Entry τ} {emission : Poh.Emission}
  {prev : Hash} {entries rest : List (Entry τ)} {emissions : List Poh.Emission}
  {hashesPerTick count : Nat}

/-- The entry a leader makes of an emission: no transactions for a tick, and else transactions whose
    hash was mixed in. -/
structure IsEntryOf (H : PohHashes τ) (e : Entry τ) (emission : Poh.Emission) : Prop where
  numHashes : e.numHashes = emission.entry.numHashes
  hash : e.hash = emission.entry.hash
  tick : emission.mixin = none → e.transactions = []
  mixin : ∀ m, emission.mixin = some m → e.transactions ≠ [] ∧ H.hashTransactions e.transactions = m

theorem IsEntryOf.isTick (h : IsEntryOf H e emission) : e.isTick = emission.isTick := by
  unfold Entry.isTick Poh.Emission.isTick
  cases hm : emission.mixin with
  | none => rw [h.tick hm]; rfl
  | some m => simpa using (h.mixin m hm).1

/-- **An entry that follows another is verified.** -/
theorem IsEntryOf.verify (h : IsEntryOf H e emission) (hfollows : emission.Follows H prev)
    (hcount : emission.Countable) : e.verify H o prev = .ok true := by
  have hlt : e.numHashes < U64 := by
    have := hcount.1
    have := Poh.u64_max_lt
    have := h.numHashes
    omega
  unfold Entry.verify
  rw [nextHash_eq prev hlt, h.numHashes, h.hash]
  obtain ⟨-, hstep⟩ := hfollows
  cases hm : emission.mixin with
  | none =>
    rw [hm] at hstep
    rw [if_pos (h.tick hm), ok_bind, decide_eq_true hstep]
  | some m =>
    obtain ⟨htxs, rfl⟩ := h.mixin m hm
    rw [hm] at hstep
    have hne : emission.entry.numHashes ≠ U64_MAX := (hcount.2 (by simp [hm])).ne
    rw [if_neg htxs, if_neg hne, ok_bind, decide_eq_true hstep]

def VerifiedFrom (H : PohHashes τ) (o : Overflow) : Hash → List (Entry τ) → Prop
  | _, [] => True
  | prev, e :: entries => e.verify H o prev = .ok true ∧ VerifiedFrom H o e.hash entries

def lastHash (start : Hash) (entries : List (Entry τ)) : Hash :=
  (entries.getLast?.map (·.hash)).getD start

theorem lastHash_concat (start : Hash) (entries : List (Entry τ)) (e : Entry τ) :
    lastHash start (entries ++ [e]) = e.hash := by
  simp [lastHash]

theorem verifiedFrom_append {start : Hash} {more : List (Entry τ)} :
    VerifiedFrom H o start (entries ++ more) ↔
      VerifiedFrom H o start entries ∧ VerifiedFrom H o (lastHash start entries) more := by
  induction entries generalizing start with
  | nil => simp [VerifiedFrom, lastHash]
  | cons e entries ih =>
    have hlast : lastHash start (e :: entries) = lastHash e.hash entries := by
      cases entries with
      | nil => rfl
      | cons e' entries => simp [lastHash, List.getLast?_cons]
    rw [List.cons_append, VerifiedFrom, VerifiedFrom, ih, hlast, and_assoc]

theorem verifiedFrom_of_chain (h : List.Forall₂ (IsEntryOf H) entries emissions)
    (hchain : Poh.Emission.Chain H prev emissions)
    (hcount : ∀ e ∈ emissions, e.Countable) : VerifiedFrom H o prev entries := by
  induction h generalizing prev with
  | nil => trivial
  | cons hentry _ ih =>
    obtain ⟨hfollows, hchain⟩ := hchain
    obtain ⟨hcount₁, hcount⟩ := List.forall_mem_cons.mp hcount
    refine ⟨hentry.verify hfollows hcount₁, ?_⟩
    rw [hentry.hash]
    exact ih hchain hcount

/-- A slice of a chain with right tick counts is accepted, and so is the rest from the count it
leaves. -/
theorem tickHashLoop_of_tickCounts (hmax : hashesPerTick < U64_MAX) {slice : List (Entry τ)}
    (h : List.Forall₂ (IsEntryOf H) (slice ++ rest) emissions)
    (hcounts : Poh.Emission.TickCounts hashesPerTick count emissions) :
    (tickHashLoop hashesPerTick count slice).2 = true ∧
      ∃ emissions', List.Forall₂ (IsEntryOf H) rest emissions' ∧
        Poh.Emission.TickCounts hashesPerTick (tickHashLoop hashesPerTick count slice).1
          emissions' := by
  induction slice generalizing emissions count with
  | nil =>
    exact ⟨decide_eq_true hcounts.count_lt, emissions, h, hcounts⟩
  | cons e slice ih =>
    obtain ⟨emission, emissions, hentry, hrest, rfl⟩ := List.forall₂_cons_left_iff.mp h
    obtain ⟨hlt, hcounts⟩ := hcounts
    have hnum := hentry.numHashes
    unfold tickHashLoop
    rw [hentry.isTick]
    split at hcounts
    · rename_i htick
      have hcount : min (count + e.numHashes) U64_MAX = hashesPerTick := by omega
      simp only [htick, hcount, ne_eq]
      exact ih hrest hcounts.2
    · rename_i htick
      have hless : count + emission.entry.numHashes < hashesPerTick := hcounts.count_lt
      have hcount : min (count + e.numHashes) U64_MAX = count + emission.entry.numHashes := by omega
      simp only [htick, hcount]
      exact ih hrest hcounts

/-- However the entries are cut into slices, each slice is accepted. -/
theorem verifySlices_of_tickCounts (hpos : hashesPerTick ≠ 0) (hmax : hashesPerTick < U64_MAX)
    (slices : List (List (Entry τ)))
    (h : List.Forall₂ (IsEntryOf H) (slices.flatten ++ rest) emissions)
    (hcounts : Poh.Emission.TickCounts hashesPerTick count emissions) :
    verifySlices hashesPerTick count slices = true := by
  induction slices generalizing emissions count with
  | nil => rfl
  | cons slice slices ih =>
    rw [List.flatten_cons, List.append_assoc] at h
    obtain ⟨haccepted, emissions', hrest, hcounts'⟩ := tickHashLoop_of_tickCounts hmax h hcounts
    rw [verifySlices, verifyTickHashCount, if_neg hpos]
    dsimp only
    rw [haccepted]
    exact ih hrest hcounts'

/-- **What a generator of proof of history emits is accepted.**  For two or more hashes per tick, or
    any number of them, and whatever calls are made, no subtraction underflows and no assertion
    fails; the emitted entries are a chain, and as entries of a block each verifies after the one
    before it; with a number of hashes per tick below `u64::MAX` the entries from one tick to the
    next hold exactly that number, and `verify_tick_hash_count` accepts them however they are cut
    into slices. -/
theorem poh_accepted (H : PohHashes τ) (o : Overflow) (start : Hash) (hashesPerTick : Option Nat)
    (hper : ∀ n ∈ hashesPerTick, 2 ≤ n ∧ n < U64) (calls : List Poh.Call) :
    ∃ poh poh' emissions, Poh.new start hashesPerTick = .ok poh ∧
      poh.run H o calls = .ok (poh', emissions) ∧ Poh.Emission.Chain H start emissions ∧
      (∀ entries, List.Forall₂ (IsEntryOf H) entries emissions → VerifiedFrom H o start entries) ∧
      ∀ n, hashesPerTick = some n → n < U64_MAX →
        (∀ before between t after, emissions = before ++ (between ++ t :: after) →
          (before = [] ∨ ∃ es t', before = es ++ [t'] ∧ t'.isTick = true) →
          (∀ e ∈ between, e.isTick = false) → t.isTick = true →
          Poh.Emission.numHashesSum (between ++ [t]) = n) ∧
        ∀ entries, List.Forall₂ (IsEntryOf H) entries emissions →
          ∀ slices : List (List (Entry τ)), slices.flatten <+: entries →
            verifySlices n 0 slices = true := by
  obtain ⟨poh, hnew, hinv, hhash, hnum, hticks, hrem⟩ := Poh.new_eq start hper
  have hpending : poh.Pending H start := ⟨hinv, by rw [hnum, hhash]; rfl⟩
  obtain ⟨poh', emissions, hrun, hchain, hcountable, hcounts⟩ := Poh.run_trace o calls hpending
  refine ⟨poh, poh', emissions, hnew, hrun, hchain,
    fun entries h => verifiedFrom_of_chain h hchain hcountable, ?_⟩
  rintro n rfl hfixed
  have htwo := (hper n rfl).1
  rw [hticks] at hcounts hrem
  have hcounts := hcounts hfixed 0 (by omega)
  refine ⟨?_, ?_⟩
  · rintro before between t after rfl hbefore hbetween ht
    exact hcounts.between hbefore hbetween ht
  · rintro entries h slices ⟨rest, rfl⟩
    exact verifySlices_of_tickCounts (by omega) hfixed slices h hcounts

end

def countingHashes : PohHashes Unit := ⟨(· + 1), fun a b => a + b + 1, fun _ => 7⟩

/-- Four hashes per tick: a value mixed in after two hashes, then the tick. -/
theorem poh_accepted_four :
    ∃ poh poh' emissions, Poh.new 0 (some 4) = .ok poh ∧
      poh.run countingHashes .checked [.hash 1, .record 7, .hash 5, .tick] = .ok (poh', emissions) ∧
      Poh.Emission.Chain countingHashes 0 emissions := by
  obtain ⟨poh, poh', emissions, hnew, hrun, hchain, -⟩ :=
    poh_accepted countingHashes .checked 0 (some 4) (by decide) [.hash 1, .record 7, .hash 5, .tick]
  exact ⟨poh, poh', emissions, hnew, hrun, hchain⟩

/-- `u64::MAX` hashes per tick stand for a variable number: a tick is emitted after one hash, and a
    verifier that counts `u64::MAX` hashes per tick rejects it. -/
theorem u64_max_hashes_per_tick :
    ((Poh.new 0 (some U64_MAX) >>= fun poh => poh.run countingHashes .checked [.tick]).toOption.map
        (·.2) = some [⟨none, ⟨1, 1⟩⟩]) ∧
      verifyTickHashCount [(⟨1, 1, []⟩ : Entry Unit)] 0 U64_MAX = (1, false) := by
  decide +kernel

end Panoptes.Ledger
