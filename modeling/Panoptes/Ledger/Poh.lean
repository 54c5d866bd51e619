import Panoptes.Sdk.Clock

/-!
# Proof of history

`ledger/src/poh.rs`: a hash that is hashed again and again.  Entries are emitted at ticks and
whenever a value is mixed in; each names the number of hashes since the one before it.

* `Poh.hashMany`, `Poh.record`, `Poh.tick` — the three calls.
* `Poh.run` — any sequence of them, with what it emits.

Principal results:

* `Poh.hashMany_eq`, `Poh.record_eq`, `Poh.tick_eq` — what a call computes while hashes remain; no
  subtraction underflows and no assertion fails.
* `Poh.run_trace` — every run emits a chain of hashes from the first hash, and with a fixed number
  of hashes per tick the emitted counts add up to it at every tick.
-/

set_option autoImplicit false

namespace Panoptes.Ledger

open Lib Sdk

/-! ## The generator -/

/-- The hash functions: of a hash, of two hashes, and `hash_transactions`, the root of the Merkle
    tree over the signatures of transactions. -/
structure PohHashes (τ : Type) where
  hash : Hash → Hash
  hashv : Hash → Hash → Hash
  hashTransactions : List τ → Hash

/-- `std::u64::MAX`. -/
def U64_MAX : Nat := U64 - 1

structure Poh where
  hash : Hash
  numHashes : Nat
  hashesPerTick : Nat
  remainingHashes : Nat
  deriving DecidableEq

structure PohEntry where
  numHashes : Nat
  hash : Hash
  deriving DecidableEq

namespace Poh

def new (hash : Hash) (hashesPerTick : Option Nat) : Except Panic Poh := do
  let hashesPerTick := hashesPerTick.getD U64_MAX
  assert (1 < hashesPerTick)
  .ok { hash, numHashes := 0, hashesPerTick, remainingHashes := hashesPerTick }

variable {τ : Type} (H : PohHashes τ) (o : Overflow)

/-- `Poh::hash`: hash at most so often, and leave one hash for the tick. -/
def hashMany (p : Poh) (maxNumHashes : Nat) : Except Panic (Poh × Bool) := do
  let beforeTick ← subU64 o p.remainingHashes 1
  let numHashes := min beforeTick maxNumHashes
  let hash := H.hash^[numHashes] p.hash
  let total ← addU64 o p.numHashes numHashes
  let remainingHashes ← subU64 o p.remainingHashes numHashes
  assert (0 < remainingHashes)
  .ok ({ p with hash, numHashes := total, remainingHashes }, decide (remainingHashes = 1))

/-- `Poh::record`; `none` if the caller has to tick first. -/
def record (p : Poh) (mixin : Hash) : Except Panic (Poh × Option PohEntry) :=
  if p.remainingHashes = 1 then .ok (p, none)
  else do
    let hash := H.hashv p.hash mixin
    let numHashes ← addU64 o p.numHashes 1
    let remainingHashes ← subU64 o p.remainingHashes 1
    .ok ({ p with hash, numHashes := 0, remainingHashes }, some { numHashes, hash })

/-- `Poh::tick`; `none` if hashes remain before the tick is due. -/
def tick (p : Poh) : Except Panic (Poh × Option PohEntry) := do
  let hash := H.hash p.hash
  let numHashes ← addU64 o p.numHashes 1
  let remainingHashes ← subU64 o p.remainingHashes 1
  -- With a variable number of hashes per tick there is always a tick.
  if p.hashesPerTick < U64_MAX ∧ remainingHashes ≠ 0 then
    .ok ({ p with hash, numHashes, remainingHashes }, none)
  else
    .ok ({ p with hash, numHashes := 0, remainingHashes := p.hashesPerTick },
      some { numHashes, hash })

/-! ## What a call computes -/

/-- Hashes remain before the next tick, and what is counted fits in a tick. -/
structure Inv (p : Poh) : Prop where
  remaining : 0 < p.remainingHashes
  counted : p.numHashes + p.remainingHashes ≤ p.hashesPerTick
  two_le : 2 ≤ p.hashesPerTick
  le_max : p.hashesPerTick ≤ U64_MAX

theorem u64_max_lt : U64_MAX < U64 := by decide

/-- `Poh::new` returns for two or more hashes per tick. -/
theorem new_eq (hash : Hash) {hashesPerTick : Option Nat}
    (h : ∀ n ∈ hashesPerTick, 2 ≤ n ∧ n < U64) :
    ∃ p, new hash hashesPerTick = .ok p ∧ p.Inv ∧ p.hash = hash ∧ p.numHashes = 0 ∧
      p.hashesPerTick = hashesPerTick.getD U64_MAX ∧ p.remainingHashes = p.hashesPerTick := by
  have hbounds : 2 ≤ hashesPerTick.getD U64_MAX ∧ hashesPerTick.getD U64_MAX ≤ U64_MAX := by
    cases hashesPerTick with
    | none => exact ⟨by decide, le_rfl⟩
    | some n =>
      obtain ⟨htwo, hlt⟩ := h n rfl
      exact ⟨htwo, Nat.le_sub_one_of_lt hlt⟩
  refine ⟨⟨hash, 0, hashesPerTick.getD U64_MAX, hashesPerTick.getD U64_MAX⟩, ?_, ?_,
    rfl, rfl, rfl, rfl⟩
  · unfold new
    dsimp only
    rw [assert_pos (show 1 < hashesPerTick.getD U64_MAX by omega)]
    rfl
  · refine ⟨?_, ?_, hbounds.1, hbounds.2⟩
    · show 0 < hashesPerTick.getD U64_MAX
      omega
    · show 0 + hashesPerTick.getD U64_MAX ≤ hashesPerTick.getD U64_MAX
      omega

variable {p : Poh}

def numDone (p : Poh) (maxNumHashes : Nat) : Nat := min (p.remainingHashes - 1) maxNumHashes

theorem numDone_lt (h : p.Inv) (maxNumHashes : Nat) :
    p.numDone maxNumHashes < p.remainingHashes := by
  have := h.remaining
  unfold numDone
  omega

/-- **What `hash` computes.** -/
theorem hashMany_eq (h : p.Inv) (maxNumHashes : Nat) :
    p.hashMany H o maxNumHashes =
      .ok ({ p with
          hash := H.hash^[p.numDone maxNumHashes] p.hash
          numHashes := p.numHashes + p.numDone maxNumHashes
          remainingHashes := p.remainingHashes - p.numDone maxNumHashes },
        decide (p.remainingHashes - p.numDone maxNumHashes = 1)) := by
  have hdone := numDone_lt h maxNumHashes
  have hle := h.counted
  have hmax := h.le_max
  have hlt := u64_max_lt
  unfold hashMany
  rw [subU64_ok o (show 1 ≤ p.remainingHashes from h.remaining), ok_bind]
  dsimp only
  rw [show min (p.remainingHashes - 1) maxNumHashes = p.numDone maxNumHashes from rfl,
    addU64_ok o (by omega), ok_bind, subU64_ok o hdone.le, ok_bind,
    assert_pos (show 0 < p.remainingHashes - p.numDone maxNumHashes by omega), ok_bind]

/-- **What `record` computes.** -/
theorem record_eq (h : p.Inv) (mixin : Hash) :
    p.record H o mixin =
      if p.remainingHashes = 1 then .ok (p, none)
      else .ok ({ p with
          hash := H.hashv p.hash mixin
          numHashes := 0
          remainingHashes := p.remainingHashes - 1 },
            some ⟨p.numHashes + 1, H.hashv p.hash mixin⟩) := by
  have hpos := h.remaining
  have hle := h.counted
  have hmax := h.le_max
  have hlt := u64_max_lt
  unfold record
  split
  · rfl
  · rw [addU64_ok o (by omega), ok_bind, subU64_ok o hpos, ok_bind]

/-- **What `tick` computes.** -/
theorem tick_eq (h : p.Inv) :
    p.tick H o =
      if p.hashesPerTick < U64_MAX ∧ p.remainingHashes - 1 ≠ 0 then
        .ok ({ p with
          hash := H.hash p.hash
          numHashes := p.numHashes + 1
          remainingHashes := p.remainingHashes - 1 }, none)
      else
        .ok ({ p with
          hash := H.hash p.hash
          numHashes := 0
          remainingHashes := p.hashesPerTick }, some ⟨p.numHashes + 1, H.hash p.hash⟩) := by
  have hpos := h.remaining
  have hle := h.counted
  have hmax := h.le_max
  have hlt := u64_max_lt
  unfold tick
  rw [addU64_ok o (by omega), ok_bind, subU64_ok o hpos, ok_bind]

/-! ## Runs -/

inductive Call where
  | hash (maxNumHashes : Nat)
  | record (mixin : Hash)
  | tick

/-- An emitted entry, with the value mixed in by `record`; a tick has none. -/
structure Emission where
  mixin : Option Hash
  entry : PohEntry
  deriving DecidableEq

def call (p : Poh) : Call → Except Panic (Poh × Option Emission)
  | .hash maxNumHashes => do
    let (p, _) ← p.hashMany H o maxNumHashes
    .ok (p, none)
  | .record mixin => do
    let (p, entry) ← p.record H o mixin
    .ok (p, entry.map fun e => ⟨some mixin, e⟩)
  | .tick => do
    let (p, entry) ← p.tick H o
    .ok (p, entry.map fun e => ⟨none, e⟩)

/-- The calls of a run, with what they emit in order. -/
def run (p : Poh) : List Call → Except Panic (Poh × List Emission)
  | [] => .ok (p, [])
  | c :: calls => do
    let (p, emission) ← p.call H o c
    let (p, emissions) ← p.run calls
    .ok (p, emission.toList ++ emissions)

end Poh

/-! ## Chains of emitted entries -/

namespace Poh.Emission

variable {τ : Type} (H : PohHashes τ)

def isTick (e : Poh.Emission) : Bool := e.mixin.isNone

/-- The step of proof of history: the entry's hash is the last of so many hashes from the one before
    it, the last one with the value mixed in. -/
def Follows (prev : Hash) (e : Poh.Emission) : Prop :=
  0 < e.entry.numHashes ∧
    match e.mixin with
    | none => e.entry.hash = H.hash^[e.entry.numHashes] prev
    | some mixin => e.entry.hash = H.hashv (H.hash^[e.entry.numHashes - 1] prev) mixin

def Chain : Hash → List Poh.Emission → Prop
  | _, [] => True
  | prev, e :: es => e.Follows H prev ∧ Chain e.entry.hash es

/-- The count of hashes of an entry is one a verifier can follow: `record` keeps one hash for the
tick. -/
def Countable (e : Poh.Emission) : Prop :=
  e.entry.numHashes ≤ U64_MAX ∧ (e.mixin ≠ none → e.entry.numHashes < U64_MAX)

/-- The counts add up to the hashes of a tick at each tick, and to less before it, after `count`
hashes. -/
def TickCounts (hashesPerTick : Nat) : Nat → List Poh.Emission → Prop
  | count, [] => count < hashesPerTick
  | count, e :: es => count < hashesPerTick ∧
    if e.isTick then count + e.entry.numHashes = hashesPerTick ∧ TickCounts hashesPerTick 0 es
    else TickCounts hashesPerTick (count + e.entry.numHashes) es

end Poh.Emission

namespace Poh

variable {τ : Type} {H : PohHashes τ} (o : Overflow) {p p' : Poh}

/-- What is known of the generator after the entry with the hash `last`: what it has hashed
since. -/
structure Pending (H : PohHashes τ) (p : Poh) (last : Hash) : Prop where
  inv : p.Inv
  hash_eq : p.hash = H.hash^[p.numHashes] last

/-- What a call does to the generator: it goes on hashing, or emits an entry that follows the last
    one, with the hashes since. -/
structure Advance (H : PohHashes τ) (p : Poh) (last : Hash) (p' : Poh)
    (emission : Option Emission) : Prop where
  hashesPerTick : p'.hashesPerTick = p.hashesPerTick
  quiet : emission = none → p'.Pending H last ∧
    p'.numHashes + p'.remainingHashes = p.numHashes + p.remainingHashes
  emits : ∀ e, emission = some e → e.Follows H last ∧ e.Countable ∧ p'.Pending H e.entry.hash ∧
    p'.numHashes = 0
  tick : ∀ e, emission = some e → e.isTick = true → p'.remainingHashes = p.hashesPerTick ∧
    (p.hashesPerTick < U64_MAX → e.entry.numHashes = p.numHashes + p.remainingHashes)
  record : ∀ e, emission = some e → e.isTick = false →
    e.entry.numHashes + p'.remainingHashes = p.numHashes + p.remainingHashes

section

variable {last : Hash} (h : p.Pending H last)

include h

theorem hashMany_pending (maxNumHashes : Nat) :
    ∃ p' due, p.hashMany H o maxNumHashes = .ok (p', due) ∧ p.Advance H last p' none := by
  obtain ⟨hinv, hhash⟩ := h
  have hle := hinv.counted
  have hdone := numDone_lt hinv maxNumHashes
  refine ⟨_, _, hashMany_eq H o hinv maxNumHashes,
    ⟨rfl, fun _ => ⟨⟨⟨?_, ?_, hinv.two_le, hinv.le_max⟩, ?_⟩, ?_⟩,
    nofun, nofun, nofun⟩⟩
  · show 0 < p.remainingHashes - p.numDone maxNumHashes
    omega
  · show p.numHashes + p.numDone maxNumHashes + (p.remainingHashes - p.numDone maxNumHashes) ≤
        p.hashesPerTick
    omega
  · rw [hhash, ← Function.iterate_add_apply, Nat.add_comm]
  · show p.numHashes + p.numDone maxNumHashes + (p.remainingHashes - p.numDone maxNumHashes) = _
    omega

/-- `record` emits unless a tick is due. -/
theorem record_pending (mixin : Hash) :
    ∃ p' entry, p.record H o mixin = .ok (p', entry) ∧
      p.Advance H last p' (entry.map fun e => ⟨some mixin, e⟩) ∧
      (entry = none ↔ p.remainingHashes = 1) ∧ (entry = none → p' = p) := by
  have hpending := h
  obtain ⟨hinv, hhash⟩ := h
  have hpos := hinv.remaining
  have hle := hinv.counted
  have hmax := hinv.le_max
  rw [record_eq H o hinv]
  split
  · rename_i hone
    exact ⟨p, none, rfl, ⟨rfl, fun _ => ⟨hpending, rfl⟩, nofun, nofun, nofun⟩,
      ⟨fun _ => hone, fun _ => rfl⟩,
      fun _ => rfl⟩
  · rename_i hone
    refine ⟨_, _, rfl, ⟨rfl, nofun, ?_, ?_, ?_⟩, ⟨nofun, fun hone' => absurd hone' hone⟩, nofun⟩
    · intro e he
      cases he
      refine ⟨⟨Nat.succ_pos _, ?_⟩, ⟨?_, fun _ => ?_⟩, ⟨⟨?_, ?_, hinv.two_le, hmax⟩, rfl⟩, rfl⟩
      · rw [hhash, Nat.add_sub_cancel]
      · show p.numHashes + 1 ≤ U64_MAX
        omega
      · show p.numHashes + 1 < U64_MAX
        omega
      · show 0 < p.remainingHashes - 1
        omega
      · show 0 + (p.remainingHashes - 1) ≤ p.hashesPerTick
        omega
    · intro e he
      cases he
      exact nofun
    · intro e he _
      cases he
      show p.numHashes + 1 + (p.remainingHashes - 1) = _
      omega

/-- `tick` emits when a tick is due. -/
theorem tick_pending :
    ∃ p' entry, p.tick H o = .ok (p', entry) ∧ p.Advance H last p' (entry.map fun e => ⟨none, e⟩) ∧
      (p.remainingHashes = 1 → entry ≠ none) := by
  obtain ⟨hinv, hhash⟩ := h
  have hpos := hinv.remaining
  have hle := hinv.counted
  have htwo := hinv.two_le
  have hmax := hinv.le_max
  rw [tick_eq H o hinv]
  split
  · refine ⟨_, none, rfl, ⟨rfl, fun _ => ⟨⟨⟨?_, ?_, htwo, hmax⟩, ?_⟩, ?_⟩, nofun, nofun, nofun⟩,
      fun hone => ?_⟩
    · show 0 < p.remainingHashes - 1
      omega
    · show p.numHashes + 1 + (p.remainingHashes - 1) ≤ p.hashesPerTick
      omega
    · rw [hhash, Function.iterate_succ_apply']
    · show p.numHashes + 1 + (p.remainingHashes - 1) = _
      omega
    · omega
  · refine ⟨_, _, rfl, ⟨rfl, nofun, ?_, ?_, ?_⟩, nofun⟩
    · intro e he
      cases he
      refine ⟨⟨Nat.succ_pos _, ?_⟩, ⟨?_, fun hm => absurd rfl hm⟩, ⟨⟨?_, ?_, htwo, hmax⟩, rfl⟩, rfl⟩
      · rw [hhash, Function.iterate_succ_apply']
      · show p.numHashes + 1 ≤ U64_MAX
        omega
      · show 0 < p.hashesPerTick
        omega
      · show 0 + p.hashesPerTick ≤ p.hashesPerTick
        omega
    · intro e he _
      cases he
      refine ⟨rfl, fun hfixed => ?_⟩
      show p.numHashes + 1 = _
      omega
    · intro e he
      cases he
      exact nofun

/-- **One call** returns and advances the generator. -/
theorem call_advance (c : Call) :
    ∃ p' emission, p.call H o c = .ok (p', emission) ∧ p.Advance H last p' emission := by
  cases c with
  | hash maxNumHashes =>
    obtain ⟨p', due, hcall, hadvance⟩ := hashMany_pending o h maxNumHashes
    exact ⟨p', none, by rw [call, hcall, ok_bind], hadvance⟩
  | record mixin =>
    obtain ⟨p', entry, hcall, hadvance, -⟩ := record_pending o h mixin
    exact ⟨p', _, by rw [call, hcall, ok_bind], hadvance⟩
  | tick =>
    obtain ⟨p', entry, hcall, hadvance, -⟩ := tick_pending o h
    exact ⟨p', _, by rw [call, hcall, ok_bind], hadvance⟩

end

/-- **Every run** returns; what it emits is a chain from the last entry, and with a fixed number of
    hashes per tick the counts add up at each tick, `count` being those emitted since the last
    one. -/
theorem run_trace (calls : List Call) {last : Hash} (h : p.Pending H last) :
    ∃ p' emissions, p.run H o calls = .ok (p', emissions) ∧ Emission.Chain H last emissions ∧
      (∀ e ∈ emissions, e.Countable) ∧
      (p.hashesPerTick < U64_MAX → ∀ count, count + p.numHashes + p.remainingHashes =
        p.hashesPerTick → Emission.TickCounts p.hashesPerTick count emissions) := by
  induction calls generalizing p last with
  | nil =>
    have hpos := h.inv.remaining
    refine ⟨p, [], rfl, trivial, nofun, fun _ count hcount => ?_⟩
    show count < p.hashesPerTick
    omega
  | cons c calls ih =>
    obtain ⟨p₁, emission, hcall, hadvance⟩ := call_advance o h c
    have hper := hadvance.hashesPerTick
    cases emission with
    | none =>
      obtain ⟨hpending, hsum⟩ := hadvance.quiet rfl
      obtain ⟨p₂, emissions, hrun, hchain, hcountable, hticks⟩ := ih hpending
      refine ⟨p₂, emissions, ?_, hchain, hcountable, fun hfixed count hcount => ?_⟩
      · rw [run, hcall, ok_bind]
        dsimp only
        rw [hrun]
        rfl
      · rw [hper] at hticks
        exact hticks hfixed count (by omega)
    | some e =>
      obtain ⟨hfollows, hcount₁, hpending, hzero⟩ := hadvance.emits e rfl
      obtain ⟨p₂, emissions, hrun, hchain, hcountable, hticks⟩ := ih hpending
      refine ⟨p₂, e :: emissions, ?_, ⟨hfollows, hchain⟩,
        List.forall_mem_cons.mpr ⟨hcount₁, hcountable⟩,
        fun hfixed count hcount => ?_⟩
      · rw [run, hcall, ok_bind]
        dsimp only
        rw [hrun]
        rfl
      · rw [hper] at hticks
        have hfirst := h.inv.remaining
        refine ⟨by omega, ?_⟩
        split
        · rename_i hist
          obtain ⟨hfull, hexact⟩ := hadvance.tick e rfl hist
          exact ⟨by omega, hticks hfixed 0 (by omega)⟩
        · rename_i hist
          have hn := hadvance.record e rfl (Bool.eq_false_iff.mpr hist)
          exact hticks hfixed _ (by omega)

end Poh

namespace Poh.Emission

variable {hashesPerTick count : Nat} {es es' : List Poh.Emission}

def numHashesSum (es : List Poh.Emission) : Nat := (es.map (·.entry.numHashes)).sum

theorem TickCounts.count_lt (h : TickCounts hashesPerTick count es) : count < hashesPerTick := by
  cases es with
  | nil => exact h
  | cons e es => exact h.1

theorem TickCounts.skip (h : TickCounts hashesPerTick count (es ++ es'))
    (hes : ∀ e ∈ es, e.isTick = false) :
    TickCounts hashesPerTick (count + numHashesSum es) es' := by
  induction es generalizing count with
  | nil => simpa [numHashesSum] using h
  | cons e es ih =>
    rw [List.cons_append, TickCounts, if_neg (by simp [hes e List.mem_cons_self])] at h
    have hrest := ih h.2 fun e' he' => hes e' (List.mem_cons_of_mem e he')
    simpa [numHashesSum, Nat.add_assoc] using hrest

/-- After a tick the count starts again. -/
theorem TickCounts.after_tick {t : Poh.Emission} (ht : t.isTick = true)
    (h : TickCounts hashesPerTick count (es ++ t :: es')) :
    TickCounts hashesPerTick 0 es' := by
  induction es generalizing count with
  | nil =>
    rw [List.nil_append, TickCounts, if_pos ht] at h
    exact h.2.2
  | cons e es ih =>
    obtain ⟨-, h⟩ := h
    split at h
    · exact ih h.2
    · exact ih h

/-- **The entries from one tick to the next** hold exactly the hashes of a tick: `before` is empty
    or ends in a tick, and no other tick is between. -/
theorem TickCounts.between {hashesPerTick : Nat} {before between after : List Poh.Emission}
    {t : Poh.Emission} (h : TickCounts hashesPerTick 0 (before ++ (between ++ t :: after)))
    (hbefore : before = [] ∨ ∃ es t', before = es ++ [t'] ∧ t'.isTick = true)
    (hbetween : ∀ e ∈ between, e.isTick = false) (ht : t.isTick = true) :
    numHashesSum (between ++ [t]) = hashesPerTick := by
  have hstart : TickCounts hashesPerTick 0 (between ++ t :: after) := by
    rcases hbefore with rfl | ⟨es, t', rfl, ht'⟩
    · exact h
    · rw [List.append_assoc] at h
      exact h.after_tick ht'
  have hend := hstart.skip hbetween
  rw [TickCounts, if_pos ht] at hend
  simpa [numHashesSum] using hend.2.1

end Poh.Emission

end Panoptes.Ledger
