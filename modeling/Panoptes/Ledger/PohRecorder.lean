import Panoptes.Ledger.Entry

/-!
# The recorder of a leader's block

`core/src/poh_recorder.rs`: the recorder ticks the proof of history and keeps the ticks until it has
a bank for them.  Once a bank is set, its ticks and the entries with its transactions are sent on,
up to the bank's last tick.

* `PohRecorder.reset`, `setBank`, `tick`, `record` — the calls; `flushCache` sends what is cached.
* `PohRecorder.run` — calls in any order.

A run goes through three phases: `Waiting` for a bank, `Recording` for it, and `Done` after its last
tick.

Principal results:

* `flush_buffered` — flushing sends the cached ticks up to the bank's last one.
* `run_recorded` — what is sent in every run is a block: a chain from the blockhash, with every tick
  of the bank once and in order, each of them registered, and nothing after the last one.
-/

set_option autoImplicit false

namespace Panoptes.Ledger

open Lib Sdk List

/-! ## Model -/

inductive PohRecorderError where
  | invalidCallingObject
  | maxHeightReached
  | minHeightNotReached
  | sendError
  deriving DecidableEq

/-- What the recorder reads of a bank, at the time it is set. -/
structure TickBank where
  slot : Nat
  ticksPerSlot : Nat
  tickHeight : Nat
  maxTickHeight : Nat
  deriving DecidableEq

structure WorkingBank where
  bank : TickBank
  minTickHeight : Nat
  maxTickHeight : Nat
  deriving DecidableEq

/-- `WorkingBankEntry`: an entry sent for the bank of a slot, with its tick height. -/
structure SentEntry (τ : Type) where
  slot : Nat
  entry : Entry τ
  tickHeight : Nat
  deriving DecidableEq

/-- What stays as it is: the hash functions, the leader schedule (the next leader slots after a
    slot), the configuration, and whether the receiver of entries still listens. -/
structure RecorderConfig (τ : Type) where
  H : PohHashes τ
  overflow : Overflow
  nextLeaderSlot : Nat → Option (Nat × Nat)
  ticksPerSlot : Nat
  hashesPerTick : Option Nat
  connected : Bool

/-- `PohRecorder`, with what it has sent and the ticks it has registered in banks. -/
structure PohRecorder (τ : Type) where
  poh : Poh
  tickHeight : Nat
  startSlot : Nat
  startTickHeight : Nat
  tickCache : List (Entry τ × Nat)
  workingBank : Option WorkingBank
  leaderFirstTickHeight : Option Nat
  leaderLastTickHeight : Nat
  graceTicks : Nat
  sent : List (SentEntry τ)
  registered : List (Nat × Hash)
  deriving DecidableEq

def GRACE_TICKS_FACTOR : Nat := 2
def MAX_GRACE_SLOTS : Nat := 2
def NUM_CONSECUTIVE_LEADER_SLOTS : Nat := 4

/-- `compute_leader_slot_tick_heights`: the first and the last tick of the next leader slots, and
the grace ticks. -/
def computeLeaderSlotTickHeights (nextLeaderSlot : Option (Nat × Nat)) (ticksPerSlot : Nat) :
    Option Nat × Nat × Nat :=
  match nextLeaderSlot with
  | some (firstSlot, lastSlot) =>
    let leaderFirstTickHeight := firstSlot * ticksPerSlot + 1
    let lastTickHeight := (lastSlot + 1) * ticksPerSlot
    let numSlots := lastSlot - firstSlot + 1
    let graceTicks :=
      min (ticksPerSlot * MAX_GRACE_SLOTS) (ticksPerSlot * numSlots / GRACE_TICKS_FACTOR)
    (some (leaderFirstTickHeight + graceTicks), lastTickHeight, graceTicks)
  | none =>
    (none, 0, min (ticksPerSlot * MAX_GRACE_SLOTS)
      (ticksPerSlot * NUM_CONSECUTIVE_LEADER_SLOTS / GRACE_TICKS_FACTOR))

namespace PohRecorder

variable {τ : Type} (cfg : RecorderConfig τ)

variable (r : PohRecorder τ)

def setPoh (poh : Poh) : PohRecorder τ := { r with poh }

def setLeaderSlots (nextLeaderSlot : Option (Nat × Nat)) : PohRecorder τ :=
  let (first, last, grace) := computeLeaderSlotTickHeights nextLeaderSlot cfg.ticksPerSlot
  { r with leaderFirstTickHeight := first, leaderLastTickHeight := last, graceTicks := grace }

def clearBank : Except Panic (PohRecorder τ) :=
  match r.workingBank with
  | none => .ok r
  | some workingBank => do
    assert (cfg.ticksPerSlot = workingBank.bank.ticksPerSlot)
    .ok ({ r with workingBank := none }.setLeaderSlots cfg
      (cfg.nextLeaderSlot workingBank.bank.slot))

def reset (blockhash : Hash) (startSlot : Nat) (nextLeaderSlot : Option (Nat × Nat)) :
    Except Panic (PohRecorder τ) := do
  let r ← r.clearBank cfg
  let poh ← Poh.new blockhash cfg.hashesPerTick
  let tickHeight := (startSlot + 1) * cfg.ticksPerSlot
  .ok ({ r with
    poh
    tickCache := []
    startSlot
    tickHeight
    startTickHeight := tickHeight + 1 }.setLeaderSlots cfg nextLeaderSlot)

/-- Ticks are registered in the bank and sent, until a send fails. -/
def sendTicks (slot : Nat) : List (Entry τ × Nat) → PohRecorder τ → PohRecorder τ × Bool
  | [], r => (r, true)
  | (entry, tickHeight) :: ticks, r =>
    let registered := { r with registered := r.registered ++ [(slot, entry.hash)] }
    if cfg.connected then
      sendTicks slot ticks { registered with
        sent := registered.sent ++ [⟨slot, entry, tickHeight⟩] }
    else (registered, false)

def clearAtMaxHeight (workingBank : WorkingBank) : Except Panic (PohRecorder τ) :=
  if workingBank.maxTickHeight ≤ r.tickHeight then
    -- `saturating_sub`
    let workingSlot := workingBank.maxTickHeight / cfg.ticksPerSlot - 1
    { r with startSlot := workingSlot, startTickHeight := workingSlot * cfg.ticksPerSlot +
      1 }.clearBank cfg
  else .ok r

def flushCache (tick : Bool) : Except Panic (PohRecorder τ × Except PohRecorderError Unit) :=
  match r.workingBank with
  | none => .ok (r, .error .maxHeightReached)
  | some workingBank =>
    if r.tickHeight < workingBank.minTickHeight then .ok (r, .error .minHeightNotReached)
    else if tick = true ∧ r.tickHeight = workingBank.minTickHeight then
      .ok (r, .error .minHeightNotReached)
    else do
      let entryCount := (r.tickCache.takeWhile (·.2 ≤ workingBank.maxTickHeight)).length
      let (flushed, sendResult) :=
        sendTicks cfg workingBank.bank.slot (r.tickCache.take entryCount) r
      let cleared ← flushed.clearAtMaxHeight cfg workingBank
      if sendResult then
        .ok ({ cleared with tickCache := cleared.tickCache.drop entryCount }, .ok ())
      else do
        -- The cache is kept, and the bank is cleared.
        let cleared ← cleared.clearBank cfg
        .ok (cleared, .ok ())

def setWorkingBank (workingBank : WorkingBank) : Except Panic (PohRecorder τ) := do
  assert (workingBank.bank.ticksPerSlot = cfg.ticksPerSlot)
  let (r, _) ← { r with workingBank := some workingBank }.flushCache cfg false
  .ok r

def setBank (bank : TickBank) : Except Panic (PohRecorder τ) :=
  r.setWorkingBank cfg
    { bank, minTickHeight := bank.tickHeight, maxTickHeight := bank.maxTickHeight }

def tick (r : PohRecorder τ) : Except Panic (PohRecorder τ) := do
  let (poh, pohEntry) ← r.poh.tick cfg.H cfg.overflow
  match pohEntry with
  | none => .ok (r.setPoh poh)
  | some pohEntry =>
    let ticked := { r with poh, tickHeight := r.tickHeight + 1 }
    if ticked.leaderFirstTickHeight = none then .ok ticked
    else do
      let entry : Entry τ :=
        { numHashes := pohEntry.numHashes, hash := pohEntry.hash, transactions := [] }
      let cached := { ticked with tickCache := ticked.tickCache ++ [(entry, ticked.tickHeight)] }
      let (flushed, _) ← cached.flushCache cfg true
      .ok flushed

def sendRecord (slot : Nat) (pohEntry : PohEntry) (transactions : List τ) :
    PohRecorder τ × Except PohRecorderError Unit :=
  if cfg.connected then
    ({ r with
      sent := r.sent ++ [⟨slot, ⟨pohEntry.numHashes, pohEntry.hash, transactions⟩, r.tickHeight⟩] },
        .ok ())
  else (r, .error .sendError)

def recordLoop (bankSlot : Nat) (mixin : Hash) (transactions : List τ) :
    Nat → PohRecorder τ → Except Panic (PohRecorder τ × Except PohRecorderError Unit)
  | 0, _ => .error .fuel
  | fuel + 1, r => do
    let (r, flushed) ← r.flushCache cfg false
    match flushed, r.workingBank with
    | .error e, _ => .ok (r, .error e)
    | .ok (), none => .ok (r, .error .maxHeightReached)
    | .ok (), some workingBank =>
      if bankSlot ≠ workingBank.bank.slot then .ok (r, .error .maxHeightReached)
      else do
        let (poh, pohEntry) ← r.poh.record cfg.H cfg.overflow mixin
        match pohEntry with
        | some pohEntry =>
          .ok ((r.setPoh poh).sendRecord cfg workingBank.bank.slot pohEntry transactions)
        | none => do
          -- The next hash has to be a tick.
          let r ← (r.setPoh poh).tick cfg
          recordLoop bankSlot mixin transactions fuel r

/-- `record`.  After one tick there is a hash for the transactions, so two rounds are enough. -/
def record (bankSlot : Nat) (mixin : Hash) (transactions : List τ) :
    Except Panic (PohRecorder τ × Except PohRecorderError Unit) := do
  assert (transactions ≠ [])
  recordLoop cfg bankSlot mixin transactions 2 r

/-- A call of the recorder's users; `hash` is the PoH service hashing between ticks. -/
inductive Call (τ : Type) where
  | hash (maxNumHashes : Nat)
  | tick
  | record (bankSlot : Nat) (mixin : Hash) (transactions : List τ)
  | setBank (bank : TickBank)

def call : Call τ → Except Panic (PohRecorder τ)
  | .hash maxNumHashes => do
    let (poh, _) ← r.poh.hashMany cfg.H cfg.overflow maxNumHashes
    .ok (r.setPoh poh)
  | .tick => r.tick cfg
  | .record bankSlot mixin transactions => do
    let (r, _) ← r.record cfg bankSlot mixin transactions
    .ok r
  | .setBank bank => r.setBank cfg bank

def run (calls : List (Call τ)) : Except Panic (PohRecorder τ) :=
  calls.foldlM (call cfg) r

end PohRecorder

/-! ## Blocks -/

namespace SentEntry

variable {τ : Type}

def ticks (sent : List (SentEntry τ)) : List (SentEntry τ) := sent.filter (·.entry.isTick)

def ofTicks (slot : Nat) (cached : List (Entry τ × Nat)) : List (SentEntry τ) :=
  cached.map fun (entry, tickHeight) => ⟨slot, entry, tickHeight⟩

theorem ticks_append (sent sent' : List (SentEntry τ)) :
    ticks (sent ++ sent') = ticks sent ++ ticks sent' :=
  filter_append ..

theorem ticks_ofTicks {slot : Nat} {cached : List (Entry τ × Nat)}
    (h : ∀ c ∈ cached, c.1.isTick = true) : ticks (ofTicks slot cached) = ofTicks slot cached := by
  refine filter_eq_self.mpr fun s hs => ?_
  obtain ⟨c, hc, rfl⟩ := mem_map.mp hs
  exact h c hc

theorem entries_ofTicks (slot : Nat) (cached : List (Entry τ × Nat)) :
    (ofTicks slot cached).map (·.entry) = cached.map (·.1) := by
  simp [ofTicks]

theorem heights_ofTicks (slot : Nat) (cached : List (Entry τ × Nat)) :
    (ofTicks slot cached).map (·.tickHeight) = cached.map (·.2) := by
  simp [ofTicks]

end SentEntry

open SentEntry

/-- What is sent for a bank and registered in it, with the ticks up to a height: the ticks follow
    each other without a gap, and exactly these are registered. -/
structure Block {τ : Type} (bank : TickBank) (upTo : Nat) (sent : List (SentEntry τ))
    (registered : List (Nat × Hash)) : Prop where
  slot : ∀ s ∈ sent, s.slot = bank.slot
  le : bank.tickHeight ≤ upTo
  heights : (SentEntry.ticks sent).map (·.tickHeight) =
    List.range' (bank.tickHeight + 1) (upTo - bank.tickHeight)
  registered_eq : registered = (SentEntry.ticks sent).map fun s => (bank.slot, s.entry.hash)

variable {bank : TickBank} {upTo : Nat}

namespace Block

variable {τ : Type} {sent : List (SentEntry τ)} {registered : List (Nat × Hash)} {s : SentEntry τ}

theorem empty (bank : TickBank) : Block (τ := τ) bank bank.tickHeight [] [] :=
  ⟨nofun, le_rfl, by simp [ticks], rfl⟩

section

variable (h : Block bank upTo sent registered)
include h

theorem sendTicks {cached : List (Entry τ × Nat)} (hticks : ∀ c ∈ cached, c.1.isTick = true)
    (hheights : cached.map (·.2) = List.range' (upTo + 1) cached.length) :
    Block bank (upTo + cached.length) (sent ++ ofTicks bank.slot cached)
      (registered ++ cached.map fun c => (bank.slot, c.1.hash)) := by
  refine ⟨forall_mem_append.mpr ⟨h.slot, ?_⟩, h.le.trans (Nat.le_add_right _ _), ?_, ?_⟩
  · rintro s hs
    obtain ⟨c, -, rfl⟩ := mem_map.mp hs
    rfl
  · have hle := h.le
    rw [ticks_append, map_append, h.heights, ticks_ofTicks hticks,
      heights_ofTicks, hheights,
      show upTo + 1 = bank.tickHeight + 1 + (upTo - bank.tickHeight) by omega, range'_append_1]
    congr 1
    omega
  · rw [ticks_append, map_append, ← h.registered_eq, ticks_ofTicks hticks]
    simp [ofTicks]

theorem sendRecord {entry : Entry τ} (htxs : entry.isTick = false)
    (tickHeight : Nat) : Block bank upTo (sent ++ [⟨bank.slot, entry, tickHeight⟩]) registered := by
  have hticks : ticks (sent ++ [(⟨bank.slot, entry, tickHeight⟩ : SentEntry τ)]) = ticks sent := by
    simp [ticks, htxs]
  exact ⟨forall_mem_concat.mpr ⟨h.slot, rfl⟩, h.le, by rw [hticks, h.heights],
    by rw [hticks, h.registered_eq]⟩

theorem height_le (hs : s ∈ sent) (htick : s.entry.isTick = true) : s.tickHeight ≤ upTo := by
  have hmem : s.tickHeight ∈ (ticks sent).map (·.tickHeight) :=
    mem_map_of_mem (mem_filter.mpr ⟨hs, htick⟩)
  rw [h.heights, mem_range'_1] at hmem
  omega

/-- After the last tick of a block that ends in a tick there is nothing. -/
theorem nothing_after
    (hlast : ∀ s, sent.getLast? = some s → s.entry.isTick = true)
    {before after : List (SentEntry τ)}
    (hsplit : sent = before ++ s :: after) (htick : s.entry.isTick = true)
    (hheight : s.tickHeight = upTo) : after = [] := by
  rcases eq_nil_or_concat after with rfl | ⟨middle, t, rfl⟩
  · rfl
  · have ht : t.entry.isTick = true := by
      refine hlast t ?_
      rw [hsplit, concat_eq_append, ← cons_append, ← append_assoc, getLast?_concat]
    -- The heights of the ticks increase, and `t` comes after `s`.
    have hsorted : ((ticks sent).map (·.tickHeight)).Pairwise (· < ·) := by
      rw [h.heights]
      exact pairwise_lt_range'
    have hsublist : [s, t].Sublist (ticks sent) := by
      have hst : [s, t].Sublist sent := by
        rw [hsplit, concat_eq_append]
        refine List.Sublist.trans ?_ (sublist_append_right before _)
        exact List.Sublist.cons_cons s (sublist_append_right middle [t])
      have hfilter := hst.filter (·.entry.isTick)
      simpa [ticks, htick, ht] using hfilter
    have hlt : s.tickHeight < t.tickHeight :=
      rel_of_pairwise_cons (hsorted.sublist (hsublist.map _)) (mem_singleton.mpr rfl)
    have hle := h.height_le (by rw [hsplit]; simp) ht
    omega

end

end Block

/-! ## Phases -/

section Phases

variable {τ : Type} {cfg : RecorderConfig τ} {blockhash mixin : Hash} {honest : Prop}
  {height start startSlot : Nat} {cache : List (Entry τ × Nat)}

/-- Entries emitted since the blockhash, the last of them just before what the generator is hashing.
    They verify if the values mixed in are honest: the hashes of the transactions they are recorded
    with. -/
structure Chained (cfg : RecorderConfig τ) (blockhash : Hash) (honest : Prop) (poh : Poh)
    (entries : List (Entry τ)) : Prop where
  pending : poh.Pending cfg.H (lastHash blockhash entries)
  verified : honest → VerifiedFrom cfg.H cfg.overflow blockhash entries

namespace Chained

variable {poh poh' : Poh} {entries : List (Entry τ)} {pohEntry : PohEntry}

section

variable (h : Chained cfg blockhash honest poh entries)
include h

theorem quiet (hadvance : poh.Advance cfg.H (lastHash blockhash entries) poh' none) :
    Chained cfg blockhash honest poh' entries :=
  ⟨(hadvance.quiet rfl).1, h.verified⟩

theorem emit {emission : Poh.Emission} {entry : Entry τ}
    (hadvance : poh.Advance cfg.H (lastHash blockhash entries) poh' (some emission))
    (hhash : entry.hash = emission.entry.hash) (hentry : honest → IsEntryOf cfg.H entry emission) :
    Chained cfg blockhash honest poh' (entries ++ [entry]) := by
  obtain ⟨hfollows, hcount, hpending, -⟩ := hadvance.emits emission rfl
  refine ⟨?_, fun hhonest => verifiedFrom_append.mpr ⟨h.verified hhonest, ?_, trivial⟩⟩
  · rw [lastHash_concat, hhash]
    exact hpending
  · exact (hentry hhonest).verify hfollows hcount

theorem tick
    (hadvance : poh.Advance cfg.H (lastHash blockhash entries) poh' (some ⟨none, pohEntry⟩)) :
    Chained cfg blockhash honest poh' (entries ++ [⟨pohEntry.numHashes, pohEntry.hash, []⟩]) :=
  h.emit hadvance rfl fun _ => ⟨rfl, rfl, fun _ => rfl, nofun⟩

theorem record {transactions : List τ} (htxs : transactions ≠ [])
    (hmixin : honest → cfg.H.hashTransactions transactions = mixin)
    (hadvance : poh.Advance cfg.H (lastHash blockhash entries) poh' (some ⟨some mixin, pohEntry⟩)) :
    Chained cfg blockhash honest poh'
      (entries ++ [⟨pohEntry.numHashes, pohEntry.hash, transactions⟩]) := by
  refine h.emit hadvance rfl fun hhonest => ⟨rfl, rfl, nofun, fun m hm => ?_⟩
  cases hm
  exact ⟨htxs, hmixin hhonest⟩

end

end Chained

/-- Cached ticks that lead from the height `upTo` to `height` without a gap. -/
structure Cached (upTo height : Nat) (cache : List (Entry τ × Nat)) : Prop where
  ticks : ∀ c ∈ cache, c.1.isTick = true
  heights : cache.map (·.2) = List.range' (upTo + 1) cache.length
  height : height = upTo + cache.length

theorem Cached.push (h : Cached upTo height cache) (pohEntry : PohEntry) :
    Cached upTo (height + 1)
      (cache ++ [(⟨pohEntry.numHashes, pohEntry.hash, []⟩, height + 1)]) := by
  refine ⟨forall_mem_concat.mpr ⟨h.ticks, rfl⟩, ?_, ?_⟩
  · rw [map_append, h.heights, h.height, length_append, length_singleton, range'_concat]
    simp only [map_cons, map_nil, append_cancel_left_eq, List.cons.injEq, and_true]
    omega
  · rw [h.height, length_append, length_singleton, Nat.add_assoc]

section

variable (cfg blockhash honest)

section

variable (bank : TickBank) (r : PohRecorder τ)

/-- No bank yet: all ticks since the blockhash are cached. -/
structure Waiting (start : Nat) (r : PohRecorder τ) : Prop where
  workingBank : r.workingBank = none
  leader : r.leaderFirstTickHeight ≠ none
  sent : r.sent = []
  registered : r.registered = []
  cached : Cached start r.tickHeight r.tickCache
  chained : Chained cfg blockhash honest r.poh (r.tickCache.map (·.1))

/-- A bank with the ticks up to `upTo` sent and those after it cached. -/
structure Buffered (upTo : Nat) (r : PohRecorder τ) : Prop where
  workingBank : r.workingBank = some ⟨bank, bank.tickHeight, bank.maxTickHeight⟩
  leader : r.leaderFirstTickHeight ≠ none
  block : Block bank upTo r.sent r.registered
  upTo_le : upTo < bank.maxTickHeight ∨ (upTo = bank.maxTickHeight ∧ r.sent = [])
  cached : Cached upTo r.tickHeight r.tickCache
  chained : Chained cfg blockhash honest r.poh (r.sent.map (·.entry) ++ r.tickCache.map (·.1))

/-- A bank before its last tick, with nothing cached. -/
structure Recording : Prop where
  buffered : Buffered cfg blockhash honest bank r.tickHeight r
  height_lt : r.tickHeight < bank.maxTickHeight

structure Done : Prop where
  workingBank : r.workingBank = none
  pending : ∃ last, r.poh.Pending cfg.H last
  reached : bank.maxTickHeight ≤ r.tickHeight
  block : Block bank bank.maxTickHeight r.sent r.registered
  last : ∀ s, r.sent.getLast? = some s → s.entry.isTick = true
  verified : honest → VerifiedFrom cfg.H cfg.overflow blockhash (r.sent.map (·.entry))

/-- The last entry that is sent has the transactions. -/
def PohRecorder.Sends (transactions : List τ) : Prop :=
  ∃ s, r.sent.getLast? = some s ∧ s.entry.transactions = transactions

/-- After a bank was set: recording, or done. -/
def Started : Prop :=
  Recording cfg blockhash honest bank r ∨ Done cfg blockhash honest bank r

end

end

namespace PohRecorder

theorem sendTicks_eq (hconnected : cfg.connected = true) (slot : Nat) (ticks : List (Entry τ × Nat))
    (r : PohRecorder τ) :
    sendTicks cfg slot ticks r = ({ r with
      sent := r.sent ++ ofTicks slot ticks
      registered := r.registered ++ ticks.map fun c => (slot, c.1.hash) }, true) := by
  induction ticks generalizing r with
  | nil => simp [sendTicks, ofTicks]
  | cons t ticks ih =>
    rw [sendTicks, if_pos hconnected, ih]
    simp [ofTicks]

theorem clearBank_eq (cfg : RecorderConfig τ) {r : PohRecorder τ} {workingBank : WorkingBank}
    (h : r.workingBank = some workingBank)
    (hticks : workingBank.bank.ticksPerSlot = cfg.ticksPerSlot) :
    ∃ r', r.clearBank cfg = .ok r' ∧ r'.workingBank = none ∧ r'.poh = r.poh ∧
      r'.tickHeight = r.tickHeight ∧
      r'.tickCache = r.tickCache ∧ r'.sent = r.sent ∧ r'.registered = r.registered := by
  refine ⟨{ r with workingBank := none }.setLeaderSlots cfg
    (cfg.nextLeaderSlot workingBank.bank.slot), ?_, rfl, rfl,
    rfl, rfl, rfl, rfl⟩
  rw [clearBank, h]
  dsimp only
  rw [assert_pos hticks.symm, ok_bind]

end PohRecorder

open PohRecorder

theorem Cached.takeWhile {max : Nat} (h : Cached upTo height cache)
    (hle : upTo ≤ max) : (cache.takeWhile (·.2 ≤ max)).length = min cache.length (max - upTo) := by
  obtain ⟨-, hheights, -⟩ := h
  induction cache generalizing upTo with
  | nil => simp
  | cons c cache ih =>
    rw [length_cons, range'_succ, map_cons, List.cons.injEq] at hheights
    obtain ⟨hc, hrest⟩ := hheights
    by_cases hfit : upTo + 1 ≤ max
    · rw [takeWhile_cons_of_pos (by simpa [hc] using hfit), length_cons, ih hfit hrest, length_cons]
      omega
    · rw [takeWhile_cons_of_neg (by simpa [hc] using hfit)]
      simp only [length_nil]
      omega

/-! ## What a call does in each phase -/

section

variable {r : PohRecorder τ} {c : Call τ} (hconnected : cfg.connected = true)
  (hticks : bank.ticksPerSlot = cfg.ticksPerSlot)

/-- How many of the cached ticks are the bank's. -/
def PohRecorder.flushCount (r : PohRecorder τ) (bank : TickBank) (upTo : Nat) : Nat :=
  min r.tickCache.length (bank.maxTickHeight - upTo)

/-- The recorder when the first cached ticks are sent and registered. -/
def PohRecorder.sendCached (r : PohRecorder τ) (slot count : Nat) : PohRecorder τ :=
  { r with
    sent := r.sent ++ ofTicks slot (r.tickCache.take count)
    registered := r.registered ++ (r.tickCache.take count).map fun c => (slot, c.1.hash) }

namespace Buffered

theorem flushCount_le : r.flushCount bank upTo ≤ r.tickCache.length := min_le_left _ _

theorem length_take_flushCount :
    (r.tickCache.take (r.flushCount bank upTo)).length = r.flushCount bank upTo := by
  rw [length_take, min_eq_left flushCount_le]

section

variable (h : Buffered cfg blockhash honest bank upTo r)
include h

theorem upTo_le_max : upTo ≤ bank.maxTickHeight := by
  rcases h.upTo_le with hlt | ⟨heq, -⟩ <;> omega

theorem isTick_of_mem_take {count : Nat} : ∀ c ∈ r.tickCache.take count, c.1.isTick = true :=
  fun c hc => h.cached.ticks c (mem_of_mem_take hc)

theorem block_sendCached :
    Block bank (upTo + r.flushCount bank upTo) (r.sendCached bank.slot (r.flushCount bank upTo)).sent
      (r.sendCached bank.slot (r.flushCount bank upTo)).registered := by
  have hsplit : List.range' (upTo + 1) r.tickCache.length =
      List.range' (upTo + 1) (r.flushCount bank upTo) ++
        List.range' (upTo + 1 + r.flushCount bank upTo)
          (r.tickCache.length - r.flushCount bank upTo) := by
    rw [range'_append_1, Nat.add_sub_cancel' flushCount_le]
  have hheights : (r.tickCache.take (r.flushCount bank upTo)).map (·.2) =
      List.range' (upTo + 1) (r.tickCache.take (r.flushCount bank upTo)).length := by
    rw [length_take_flushCount, map_take, h.cached.heights, hsplit, take_left' (by simp)]
  have hblock := h.block.sendTicks h.isTick_of_mem_take hheights
  rwa [length_take_flushCount] at hblock

theorem chained_sendCached (count : Nat) : Chained cfg blockhash honest r.poh
    ((r.sendCached bank.slot count).sent.map (·.entry) ++ (r.tickCache.drop count).map (·.1)) := by
  have hentries : r.sent.map (·.entry) ++ r.tickCache.map (·.1) =
      (r.sent ++ ofTicks bank.slot (r.tickCache.take count)).map (·.entry) ++
        (r.tickCache.drop count).map (·.1) := by
    rw [map_append, entries_ofTicks, append_assoc, ← map_append, take_append_drop]
  have hchained := h.chained
  rwa [hentries] at hchained

include hconnected in
theorem flushCache_eq (tick : Bool) (htick : tick = true → bank.tickHeight < r.tickHeight) :
    r.flushCache cfg tick = (do
      let cleared ← (r.sendCached bank.slot (r.flushCount bank upTo)).clearAtMaxHeight cfg
        ⟨bank, bank.tickHeight, bank.maxTickHeight⟩
      .ok ({ cleared with tickCache := cleared.tickCache.drop (r.flushCount bank upTo) },
        .ok ())) := by
  have hle := h.block.le
  have hheight := h.cached.height
  conv_lhs => rw [flushCache, h.workingBank]
  dsimp only
  rw [if_neg (by omega), if_neg (fun hmin => by have := htick hmin.1; omega),
    h.cached.takeWhile h.upTo_le_max, sendTicks_eq hconnected]
  rfl

/-- The last entry of a bank that is done is one of the ticks just sent. -/
theorem isTick_getLast (hlast : bank.maxTickHeight ≤ r.tickHeight) {s : SentEntry τ}
    (hs : (r.sendCached bank.slot (r.flushCount bank upTo)).sent.getLast? = some s) :
    s.entry.isTick = true := by
  have hmem : s ∈ ofTicks bank.slot (r.tickCache.take (r.flushCount bank upTo)) := by
    rcases h.upTo_le with hlt | ⟨-, hnil⟩
    · refine mem_of_getLast? (a := s) ?_
      unfold sendCached at hs
      rwa [getLast?_append_of_ne_nil] at hs
      intro hempty
      have hzero := congrArg List.length hempty
      have hheight := h.cached.height
      rw [ofTicks, length_map, length_take_flushCount, length_nil, flushCount] at hzero
      omega
    · unfold sendCached at hs
      rw [hnil, nil_append] at hs
      exact mem_of_getLast? hs
  obtain ⟨c, hc, rfl⟩ := mem_map.mp hmem
  exact h.isTick_of_mem_take c hc

end

end Buffered

include hconnected hticks in
/-- **Flushing** sends the cached ticks of the bank, and clears the bank if its last tick is among
them. -/
theorem flush_buffered (h : Buffered cfg blockhash honest bank upTo r) (tick : Bool)
    (htick : tick = true → bank.tickHeight < r.tickHeight) :
    ∃ r', r.flushCache cfg tick = .ok (r', .ok ()) ∧ r'.poh = r.poh ∧ r'.tickHeight = r.tickHeight ∧
      (r.tickHeight < bank.maxTickHeight → Recording cfg blockhash honest bank r') ∧
      (bank.maxTickHeight ≤ r.tickHeight → Done cfg blockhash honest bank r') := by
  have hheight := h.cached.height
  have hmax := h.upTo_le_max
  have hcount : r.flushCount bank upTo = min r.tickCache.length (bank.maxTickHeight - upTo) := rfl
  have hblock := h.block_sendCached
  have hchained := h.chained_sendCached (r.flushCount bank upTo)
  rw [h.flushCache_eq hconnected tick htick]
  by_cases hlast : bank.maxTickHeight ≤ r.tickHeight
  · have hupTo : upTo + r.flushCount bank upTo = bank.maxTickHeight := by omega
    obtain ⟨r', hclear, hbank, hpoh, hheight', hcache, hsent, hregistered⟩ :=
      clearBank_eq cfg (r := { r.sendCached bank.slot (r.flushCount bank upTo) with
          startSlot := bank.maxTickHeight / cfg.ticksPerSlot - 1
          startTickHeight := (bank.maxTickHeight / cfg.ticksPerSlot - 1) * cfg.ticksPerSlot + 1 })
        h.workingBank hticks
    have hcleared : (r.sendCached bank.slot (r.flushCount bank upTo)).clearAtMaxHeight cfg
        ⟨bank, bank.tickHeight, bank.maxTickHeight⟩ = .ok r' := (if_pos hlast).trans hclear
    rw [hcleared, ok_bind]
    refine ⟨_, rfl, hpoh, hheight', fun hlt => absurd hlt (by omega), fun _ => ?_⟩
    have hpending : ∃ last, r.poh.Pending cfg.H last := ⟨_, hchained.pending⟩
    rw [← show r'.poh = r.poh from hpoh] at hpending
    refine ⟨hbank, hpending, hlast.trans_eq hheight'.symm, ?_, ?_, ?_⟩
    · show Block bank bank.maxTickHeight r'.sent r'.registered
      rw [hsent, hregistered, ← hupTo]
      exact hblock
    · intro s hs
      rw [show r'.sent = _ from hsent] at hs
      exact h.isTick_getLast hlast hs
    · intro hhonest
      show VerifiedFrom _ _ _ (r'.sent.map (·.entry))
      rw [hsent]
      exact (verifiedFrom_append.mp (hchained.verified hhonest)).1
  · have hall : r.flushCount bank upTo = r.tickCache.length := by omega
    have hopen : (r.sendCached bank.slot (r.flushCount bank upTo)).clearAtMaxHeight cfg
        ⟨bank, bank.tickHeight, bank.maxTickHeight⟩ = .ok _ := if_neg hlast
    rw [hopen, ok_bind]
    refine ⟨_, rfl, rfl, rfl,
      fun hlt => ⟨⟨h.workingBank, h.leader, ?_, .inl hlt, ⟨?_, ?_, ?_⟩, ?_⟩, hlt⟩,
      fun hle => absurd hle hlast⟩
    · show Block bank r.tickHeight _ _
      rw [hheight, ← hall]
      exact hblock
    · show ∀ c ∈ r.tickCache.drop _, _
      intro c hc
      exact h.cached.ticks c (mem_of_mem_drop hc)
    · show (r.tickCache.drop _).map (·.2) = List.range' _ (r.tickCache.drop _).length
      rw [hall, drop_length]
      rfl
    · show r.tickHeight = r.tickHeight + (r.tickCache.drop _).length
      rw [hall, drop_length, length_nil, Nat.add_zero]
    · exact hchained

theorem Waiting.tick {start : Nat} (h : Waiting cfg blockhash honest start r) :
    ∃ r', r.tick cfg = .ok r' ∧ Waiting cfg blockhash honest start r' := by
  obtain ⟨poh', entry, htick, hadvance, -⟩ := Poh.tick_pending cfg.overflow h.chained.pending
  rw [PohRecorder.tick, htick, ok_bind]
  cases entry with
  | none => exact ⟨_, rfl, { h with chained := h.chained.quiet hadvance }⟩
  | some e =>
    dsimp only
    rw [if_neg h.leader, h.workingBank]
    refine ⟨_, rfl, rfl, h.leader, h.sent, h.registered, h.cached.push e, ?_⟩
    rw [map_append]
    exact h.chained.tick hadvance

theorem Done.tick (h : Done cfg blockhash honest bank r) :
    ∃ r', r.tick cfg = .ok r' ∧ Done cfg blockhash honest bank r' := by
  obtain ⟨last, hpending⟩ := h.pending
  obtain ⟨poh', entry, htick, hadvance, -⟩ := Poh.tick_pending cfg.overflow hpending
  have hpending' : ∃ last, poh'.Pending cfg.H last := by
    cases entry with
    | none => exact ⟨_, (hadvance.quiet rfl).1⟩
    | some => exact ⟨_, (hadvance.emits _ rfl).2.2.1⟩
  rw [PohRecorder.tick, htick, ok_bind]
  cases entry with
  | none => exact ⟨_, rfl, { h with pending := hpending' }⟩
  | some =>
    dsimp only
    split
    · exact ⟨_, rfl, { h with pending := hpending', reached := Nat.le_succ_of_le h.reached }⟩
    · rw [h.workingBank]
      exact ⟨_, rfl,
        { h with workingBank := rfl, pending := hpending', reached := Nat.le_succ_of_le h.reached }⟩

section

variable {transactions : List τ} (h : Recording cfg blockhash honest bank r)
include hconnected hticks h

/-- A tick while recording; if it was due, there is a hash for transactions after it. -/
theorem Recording.tick :
    ∃ r', r.tick cfg = .ok r' ∧ Started cfg blockhash honest bank r' ∧
      (r.poh.remainingHashes = 1 → r'.poh.remainingHashes ≠ 1) := by
  have hbuffered := h.buffered
  have hlt := h.height_lt
  have hle := hbuffered.block.le
  obtain ⟨poh', entry, htick, hadvance, hdue⟩ :=
    Poh.tick_pending cfg.overflow hbuffered.chained.pending
  rw [PohRecorder.tick, htick, ok_bind]
  cases entry with
  | none =>
    refine ⟨_, rfl, .inl ⟨{ hbuffered with chained := hbuffered.chained.quiet hadvance }, hlt⟩,
      fun hone => absurd rfl (hdue hone)⟩
  | some e =>
    dsimp only
    rw [if_neg hbuffered.leader]
    have hcached : Buffered cfg blockhash honest bank r.tickHeight { r with
        poh := poh'
        tickHeight := r.tickHeight + 1
        tickCache := r.tickCache ++ [(⟨e.numHashes, e.hash, []⟩, r.tickHeight + 1)] } := by
      refine ⟨hbuffered.workingBank, hbuffered.leader, hbuffered.block, .inl hlt,
        hbuffered.cached.push e, ?_⟩
      rw [map_append, ← append_assoc]
      exact hbuffered.chained.tick hadvance
    obtain ⟨r', hflush, hpoh, -, hrecording, hdone⟩ := flush_buffered hconnected hticks hcached true
      fun _ => Nat.lt_succ_of_le hle
    rw [hflush]
    refine ⟨r', rfl, ?_, fun _ => ?_⟩
    · rcases Nat.lt_or_ge (r.tickHeight + 1) bank.maxTickHeight with hmore | hlast
      · exact .inl (hrecording hmore)
      · exact .inr (hdone hlast)
    · have hfull := (hadvance.tick _ rfl rfl).1
      have htwo := hbuffered.chained.pending.inv.two_le
      have hpoh : r'.poh = poh' := hpoh
      rw [hpoh]
      omega

variable (bankSlot : Nat) (htxs : transactions ≠ [])
  (hmixin : honest → cfg.H.hashTransactions transactions = mixin)
include htxs hmixin

/-- One round of `record`: it ends, or there is a tick first. -/
theorem Recording.recordRound (fuel : Nat) :
    (∃ r' result, recordLoop cfg bankSlot mixin transactions (fuel + 1) r = .ok (r', result) ∧
        Recording cfg blockhash honest bank r' ∧ (result = .ok () → r'.Sends transactions)) ∨
      (r.poh.remainingHashes = 1 ∧ ∃ r',
        recordLoop cfg bankSlot mixin transactions (fuel + 1) r =
          recordLoop cfg bankSlot mixin transactions fuel r' ∧
        Started cfg blockhash honest bank r' ∧ r'.poh.remainingHashes ≠ 1) := by
  obtain ⟨r₁, hflush, hpoh₁, -, hrecording, -⟩ :=
    flush_buffered hconnected hticks h.buffered false nofun
  have h₁ := hrecording h.height_lt
  have hbuffered := h₁.buffered
  obtain ⟨poh', entry, hrecord, hadvance, hnone, hsame⟩ :=
    Poh.record_pending cfg.overflow hbuffered.chained.pending mixin
  rw [recordLoop, hflush, ok_bind]
  dsimp only
  rw [hbuffered.workingBank]
  dsimp only
  by_cases hslot : bankSlot = bank.slot
  · rw [if_neg (not_not.mpr hslot), hrecord, ok_bind]
    cases entry with
    | none =>
      -- A tick is due.
      refine .inr ⟨by rw [← hpoh₁]; exact hnone.mp rfl, ?_⟩
      obtain rfl := hsame rfl
      obtain ⟨r', htick, hstarted, hhash⟩ := h₁.tick hconnected hticks
      have hself : r₁.setPoh r₁.poh = r₁ := rfl
      rw [hself]
      rw [htick]
      exact ⟨r', rfl, hstarted, hhash (hnone.mp rfl)⟩
    | some e =>
      have htick : (⟨e.numHashes, e.hash, transactions⟩ : Entry τ).isTick = false := by
        simpa [Entry.isTick] using htxs
      have hcache : r₁.tickCache = [] := by
        have := hbuffered.cached.height
        exact eq_nil_of_length_eq_zero (by omega)
      refine .inl ⟨{ r₁ with
        poh := poh'
        sent := r₁.sent ++ [⟨bank.slot, ⟨e.numHashes, e.hash, transactions⟩, r₁.tickHeight⟩] },
          .ok (), ?_, ?_⟩
      · dsimp only [sendRecord]
        rw [if_pos hconnected]
        rfl
      refine ⟨⟨{ hbuffered with
        block := hbuffered.block.sendRecord htick _, upTo_le := .inl h₁.height_lt, chained := ?_ },
          h₁.height_lt⟩,
        fun _ => ⟨_, getLast?_concat, rfl⟩⟩
      have hchained := hbuffered.chained
      rw [hcache, map_nil, append_nil] at hchained
      rw [hcache, map_nil, append_nil, map_append]
      rw [hcache, map_nil, append_nil] at hadvance
      exact hchained.record htxs hmixin hadvance
  · rw [if_pos hslot]
    exact .inl ⟨r₁, _, rfl, h₁, nofun⟩

/-- **`record` while recording**: it returns, and if it succeeds the transactions are sent and the
    last tick is still to come. -/
theorem Recording.record :
    ∃ r' result, r.record cfg bankSlot mixin transactions = .ok (r', result) ∧
      Started cfg blockhash honest bank r' ∧
      (result = .ok () → Recording cfg blockhash honest bank r' ∧ r'.Sends transactions) := by
  rw [PohRecorder.record, assert_pos htxs]
  rcases h.recordRound hconnected hticks bankSlot htxs hmixin 1 with
    ⟨r', result, hloop, h', hsends⟩ | ⟨-, r₁, hloop, h₁, hhash⟩
  · exact ⟨r', result, hloop, .inl h', fun hok => ⟨h', hsends hok⟩⟩
  · rw [hloop]
    rcases h₁ with h₁ | h₁
    · rcases h₁.recordRound hconnected hticks bankSlot htxs hmixin 0 with
        ⟨r', result, hloop', h', hsends⟩ | ⟨hone, -⟩
      · exact ⟨r', result, hloop', .inl h', fun hok => ⟨h', hsends hok⟩⟩
      · exact absurd hone hhash
    · -- The tick was the bank's last one.
      refine ⟨r₁, .error .maxHeightReached, ?_, .inr h₁, nofun⟩
      rw [recordLoop, flushCache, h₁.workingBank]
      rfl

end

theorem record_without_bank (hbank : r.workingBank = none) (bankSlot : Nat) (mixin : Hash)
    {transactions : List τ} (htxs : transactions ≠ []) :
    r.record cfg bankSlot mixin transactions = .ok (r, .error .maxHeightReached) := by
  rw [record, assert_pos htxs, recordLoop, flushCache, hbank]
  rfl

/-- What the recorder's users promise: they record transactions. -/
def PohRecorder.Call.HasTransactions : PohRecorder.Call τ → Prop
  | .record _ _ transactions => transactions ≠ []
  | _ => True

/-- The value mixed in is the hash of the transactions. -/
def PohRecorder.Call.IsHonest (H : PohHashes τ) : PohRecorder.Call τ → Prop
  | .record _ mixin transactions => H.hashTransactions transactions = mixin
  | _ => True

def PohRecorder.Call.KeepsBank : PohRecorder.Call τ → Prop
  | .setBank _ => False
  | _ => True

theorem Waiting.call (h : Waiting cfg blockhash honest start r) (htxs : c.HasTransactions)
    (hbank : c.KeepsBank) :
    ∃ r', r.call cfg c = .ok r' ∧ Waiting cfg blockhash honest start r' := by
  cases c with
  | hash maxNumHashes =>
    obtain ⟨poh', due, hhash, hadvance⟩ :=
      Poh.hashMany_pending cfg.overflow h.chained.pending maxNumHashes
    rw [call, hhash]
    exact ⟨_, rfl, { h with chained := h.chained.quiet hadvance }⟩
  | tick => exact h.tick
  | record bankSlot mixin =>
    rw [call, record_without_bank h.workingBank bankSlot mixin htxs]
    exact ⟨r, rfl, h⟩
  | setBank => exact absurd hbank id

include hconnected hticks in
/-- **The bank is set**: the cached ticks are sent, all of the bank's if they are already there. -/
theorem Waiting.setBank (h : Waiting cfg blockhash honest start r)
    (hstart : bank.tickHeight = start) (hmax : bank.tickHeight ≤ bank.maxTickHeight) :
    ∃ r', r.setBank cfg bank = .ok r' ∧ Started cfg blockhash honest bank r' := by
  subst hstart
  have hbuffered : Buffered cfg blockhash honest bank bank.tickHeight
      { r with workingBank := some ⟨bank, bank.tickHeight, bank.maxTickHeight⟩ } := by
    refine ⟨rfl, h.leader, ?_, ?_, h.cached, ?_⟩
    · show Block bank bank.tickHeight r.sent r.registered
      rw [h.sent, h.registered]
      exact Block.empty bank
    · rcases Nat.lt_or_eq_of_le hmax with hlt | heq
      · exact .inl hlt
      · exact .inr ⟨heq, h.sent⟩
    · show Chained cfg blockhash honest r.poh (r.sent.map (·.entry) ++ r.tickCache.map (·.1))
      rw [h.sent]
      exact h.chained
  obtain ⟨r', hflush, -, -, hrecording, hdone⟩ :=
    flush_buffered hconnected hticks hbuffered false nofun
  refine ⟨r', ?_, ?_⟩
  · rw [setBank, setWorkingBank, assert_pos hticks, ok_bind, hflush, ok_bind]
  · rcases Nat.lt_or_ge r.tickHeight bank.maxTickHeight with hmore | hlast
    · exact .inl (hrecording hmore)
    · exact .inr (hdone hlast)

section

variable (h : Started cfg blockhash honest bank r)
include h hconnected hticks

/-- **A call after the bank was set.** -/
theorem Started.call (htxs : c.HasTransactions)
    (hhonest : honest → c.IsHonest cfg.H) (hbank : c.KeepsBank) :
    ∃ r', r.call cfg c = .ok r' ∧ Started cfg blockhash honest bank r' := by
  cases c with
  | hash maxNumHashes =>
    rcases h with h | h
    · have hbuffered := h.buffered
      obtain ⟨poh', due, hhash, hadvance⟩ :=
        Poh.hashMany_pending cfg.overflow hbuffered.chained.pending maxNumHashes
      rw [call, hhash]
      exact ⟨_, rfl,
        .inl ⟨{ hbuffered with chained := hbuffered.chained.quiet hadvance }, h.height_lt⟩⟩
    · obtain ⟨last, hpending⟩ := h.pending
      obtain ⟨poh', due, hhash, hadvance⟩ := Poh.hashMany_pending cfg.overflow hpending maxNumHashes
      rw [call, hhash]
      exact ⟨_, rfl, .inr { h with pending := ⟨_, (hadvance.quiet rfl).1⟩ }⟩
  | tick =>
    rcases h with h | h
    · obtain ⟨r', htick, hstarted, -⟩ := h.tick hconnected hticks
      exact ⟨r', htick, hstarted⟩
    · obtain ⟨r', htick, hdone⟩ := h.tick
      exact ⟨r', htick, .inr hdone⟩
  | record bankSlot mixin =>
    rcases h with h | h
    · obtain ⟨r', result, hrecord, hstarted, -⟩ := h.record hconnected hticks bankSlot htxs hhonest
      rw [call, hrecord]
      exact ⟨r', rfl, hstarted⟩
    · rw [call, record_without_bank h.workingBank bankSlot mixin htxs]
      exact ⟨r, rfl, .inr h⟩
  | setBank => exact absurd hbank id

omit h hconnected hticks in
theorem Waiting.run {start : Nat} (h : Waiting cfg blockhash honest start r) (calls : List (Call τ))
    (hcalls : ∀ c ∈ calls, c.HasTransactions ∧ c.KeepsBank) :
    ∃ r', r.run cfg calls = .ok r' ∧ Waiting cfg blockhash honest start r' := by
  induction calls generalizing r with
  | nil => exact ⟨r, rfl, h⟩
  | cons c calls ih =>
    obtain ⟨⟨htxs, hbank⟩, hcalls⟩ := forall_mem_cons.mp hcalls
    obtain ⟨r₁, hcall, h₁⟩ := h.call htxs hbank
    rw [run, foldlM_cons, hcall, ok_bind]
    exact ih h₁ hcalls

theorem Started.run (calls : List (Call τ))
    (hcalls : ∀ c ∈ calls, c.HasTransactions ∧ c.KeepsBank)
    (hhonest : honest → ∀ c ∈ calls, c.IsHonest cfg.H) :
    ∃ r', r.run cfg calls = .ok r' ∧ Started cfg blockhash honest bank r' := by
  induction calls generalizing r with
  | nil => exact ⟨r, rfl, h⟩
  | cons c calls ih =>
    obtain ⟨⟨htxs, hbank⟩, hcalls⟩ := forall_mem_cons.mp hcalls
    obtain ⟨r₁, hcall, h₁⟩ :=
      h.call hconnected hticks htxs (fun hh => hhonest hh c mem_cons_self) hbank
    rw [run, foldlM_cons, hcall]
    exact ih h₁ hcalls fun hh c' hc' => hhonest hh c' (mem_cons_of_mem c hc')

end

theorem waiting_reset (hper : ∀ n ∈ cfg.hashesPerTick, 2 ≤ n ∧ n < U64) {r₀ : PohRecorder τ}
    (hsent : r₀.sent = []) (hregistered : r₀.registered = []) {range : Nat × Nat}
    (hreset : r₀.reset cfg blockhash startSlot (some range) = .ok r) :
    Waiting cfg blockhash honest ((startSlot + 1) * cfg.ticksPerSlot) r := by
  obtain ⟨r₁, hclear, hreset⟩ := bind_eq_ok.mp hreset
  have hcleared : r₁.workingBank = none ∧ r₁.sent = r₀.sent ∧ r₁.registered = r₀.registered := by
    unfold clearBank at hclear
    split at hclear
    · rename_i hnone
      cases hclear
      exact ⟨hnone, rfl, rfl⟩
    · obtain ⟨-, -, hclear⟩ := bind_eq_ok.mp hclear
      cases hclear
      exact ⟨rfl, rfl, rfl⟩
  obtain ⟨hbank, hsent', hregistered'⟩ := hcleared
  obtain ⟨poh, hnew, hinv, hhash, hnum, -⟩ := Poh.new_eq blockhash hper
  rw [hnew] at hreset
  cases hreset
  refine ⟨hbank, nofun, hsent'.trans hsent, hregistered'.trans hregistered, ⟨nofun, rfl, rfl⟩,
    ⟨⟨hinv, ?_⟩, fun _ => trivial⟩⟩
  show poh.hash = cfg.H.hash^[poh.numHashes] blockhash
  rw [hnum, hhash]
  rfl

end

/-- A bank that is a child of the slot: it starts at the slot's last tick, and its own last tick is
later. -/
structure TickBank.ChildOf (cfg : RecorderConfig τ) (startSlot : Nat) (bank : TickBank) : Prop where
  ticksPerSlot : bank.ticksPerSlot = cfg.ticksPerSlot
  slot_lt : startSlot < bank.slot
  tickHeight : bank.tickHeight = (startSlot + 1) * cfg.ticksPerSlot
  maxTickHeight : bank.maxTickHeight = (bank.slot + 1) * cfg.ticksPerSlot

theorem TickBank.ChildOf.le (h : bank.ChildOf cfg startSlot) :
    bank.tickHeight ≤ bank.maxTickHeight := by
  have := h.slot_lt
  rw [h.tickHeight, h.maxTickHeight]
  exact Nat.mul_le_mul_right _ (by omega)

/-- What is sent for a bank is a block as far as it goes. -/
structure Recorded (cfg : RecorderConfig τ) (blockhash : Hash) (honest : Prop) (bank : TickBank)
    (r : PohRecorder τ) : Prop where
  /-- Everything is sent for the bank. -/
  slot : ∀ s ∈ r.sent, s.slot = bank.slot
  /-- The entries are a chain from the blockhash. -/
  chain : honest → VerifiedFrom cfg.H cfg.overflow blockhash (r.sent.map (·.entry))
  /-- The ticks are those after the bank's height, one after another, all that were produced up to
  its last one. -/
  ticks : (SentEntry.ticks r.sent).map (·.tickHeight) =
    List.range' (bank.tickHeight + 1) (min r.tickHeight bank.maxTickHeight - bank.tickHeight)
  /-- Exactly these ticks are registered. -/
  registered : r.registered = (SentEntry.ticks r.sent).map fun s => (bank.slot, s.entry.hash)
  /-- Nothing comes after the bank's last tick. -/
  ended : ∀ before s after, r.sent = before ++ s :: after → s.entry.isTick = true →
    s.tickHeight = bank.maxTickHeight → after = []

theorem Started.recorded {r : PohRecorder τ} (h : Started cfg blockhash honest bank r) :
    Recorded cfg blockhash honest bank r := by
  rcases h with h | h
  · have hbuffered := h.buffered
    have hlt := h.height_lt
    refine ⟨hbuffered.block.slot,
      fun hh => (verifiedFrom_append.mp (hbuffered.chained.verified hh)).1,
      ?_, hbuffered.block.registered_eq, fun before s after hsplit htick hheight => ?_⟩
    · rw [Nat.min_eq_left hlt.le]
      exact hbuffered.block.heights
    · have hle := hbuffered.block.height_le (by rw [hsplit]; simp) htick
      omega
  · refine ⟨h.block.slot, h.verified, ?_, h.block.registered_eq,
      fun before s after hsplit htick hheight => h.block.nothing_after h.last hsplit htick hheight⟩
    rw [Nat.min_eq_right h.reached]
    exact h.block.heights

/-- The run up to the bank, the bank and the run after it. -/
theorem run_started {r₁ : PohRecorder τ} (h : Waiting cfg blockhash honest start r₁)
    (hconnected : cfg.connected = true) (hticks : bank.ticksPerSlot = cfg.ticksPerSlot)
    (hstart : bank.tickHeight = start) (hmax : bank.tickHeight ≤ bank.maxTickHeight)
    {before after : List (Call τ)} (hbefore : ∀ c ∈ before, c.HasTransactions ∧ c.KeepsBank)
    (hafter : ∀ c ∈ after, c.HasTransactions ∧ c.KeepsBank)
    (hhonest : honest → ∀ c ∈ after, c.IsHonest cfg.H) :
    ∃ r, r₁.run cfg (before ++ .setBank bank :: after) = .ok r ∧
      Started cfg blockhash honest bank r := by
  obtain ⟨r₂, hrun₂, h₂⟩ := h.run before hbefore
  obtain ⟨r₃, hset, h₃⟩ := h₂.setBank hconnected hticks hstart hmax
  obtain ⟨r, hrun, hstarted⟩ := h₃.run hconnected hticks after hafter hhonest
  refine ⟨r, ?_, hstarted⟩
  unfold run at hrun₂ hrun ⊢
  rw [foldlM_append, hrun₂, ok_bind, foldlM_cons, call, hset, ok_bind, hrun]

/-- **A leader's block is complete and ordered.**  After a reset with leader slots ahead, any ticks,
    hashes and records, one bank that is a child of the slot, set at any time, and any more ticks,
    hashes and records: the calls return, what is sent is a block as far as it goes (`Recorded`),
    and `record` succeeds only for the bank and before its last tick. -/
theorem run_recorded (cfg : RecorderConfig τ) (hconnected : cfg.connected = true)
    (hper : ∀ n ∈ cfg.hashesPerTick, 2 ≤ n ∧ n < U64) (r₀ r₁ : PohRecorder τ) (hsent : r₀.sent = [])
    (hregistered : r₀.registered = []) (blockhash : Hash) (startSlot : Nat) (range : Nat × Nat)
    (hreset : r₀.reset cfg blockhash startSlot (some range) = .ok r₁) (bank : TickBank)
    (hbank : bank.ChildOf cfg startSlot) (before after : List (Call τ))
    (hbefore : ∀ c ∈ before, c.HasTransactions ∧ c.KeepsBank)
    (hafter : ∀ c ∈ after, c.HasTransactions ∧ c.KeepsBank) :
    (∃ r, r₁.run cfg (before ++ .setBank bank :: after) = .ok r ∧
      Recorded cfg blockhash (∀ c ∈ after, c.IsHonest cfg.H) bank r) ∧
    (∀ r bankSlot mixin transactions, transactions ≠ [] → r₁.run cfg before = .ok r →
      ∀ r' result, r.record cfg bankSlot mixin transactions = .ok (r', result) → result ≠ .ok ()) ∧
    ∀ r bankSlot mixin transactions, transactions ≠ [] →
      r₁.run cfg (before ++ .setBank bank :: after) = .ok r →
      ∀ r' result, r.record cfg bankSlot mixin transactions = .ok (r', result) → result = .ok () →
        r'.Sends transactions ∧ ∀ s ∈ r'.sent, s.entry.isTick = true →
          s.tickHeight < bank.maxTickHeight := by
  have hmax := hbank.le
  refine ⟨?_, ?_, ?_⟩
  · have hwaiting : Waiting cfg blockhash (∀ c ∈ after, c.IsHonest cfg.H) _ r₁ :=
      waiting_reset hper hsent hregistered hreset
    obtain ⟨r, hrun, hstarted⟩ :=
      run_started hwaiting hconnected hbank.ticksPerSlot hbank.tickHeight hmax hbefore
      hafter id
    exact ⟨r, hrun, hstarted.recorded⟩
  · intro r bankSlot mixin transactions htxs hrun r' result hrecord
    have hwaiting : Waiting cfg blockhash False _ r₁ := waiting_reset hper hsent hregistered hreset
    obtain ⟨r₂, hrun₂, h₂⟩ := hwaiting.run before hbefore
    obtain rfl : r₂ = r := Except.ok.inj (hrun₂.symm.trans hrun)
    rw [record_without_bank h₂.workingBank bankSlot mixin htxs] at hrecord
    cases hrecord
    exact nofun
  · intro r bankSlot mixin transactions htxs hrun r' result hrecord hresult
    -- Heights do not depend on what is mixed in.
    have hwaiting : Waiting cfg blockhash False _ r₁ := waiting_reset hper hsent hregistered hreset
    obtain ⟨r₂, hrun₂, h₂⟩ :=
      run_started hwaiting hconnected hbank.ticksPerSlot hbank.tickHeight hmax hbefore
      hafter False.elim
    obtain rfl : r₂ = r := Except.ok.inj (hrun₂.symm.trans hrun)
    rcases h₂ with h₂ | h₂
    · obtain ⟨r₃, result', hrecord', -, hrecording⟩ :=
        h₂.record hconnected hbank.ticksPerSlot bankSlot htxs
        (False.elim : False → cfg.H.hashTransactions transactions = mixin)
      cases hrecord'.symm.trans hrecord
      obtain ⟨h₃, hsends⟩ := hrecording hresult
      exact ⟨hsends, fun s hs htick => (h₃.buffered.block.height_le hs htick).trans_lt h₃.height_lt⟩
    · rw [record_without_bank h₂.workingBank bankSlot mixin htxs] at hrecord
      cases hrecord
      cases hresult

end Phases

/-- A recorder of blocks with two ticks of two hashes each. -/
def twoTicks : RecorderConfig Unit where
  H := countingHashes
  overflow := .checked
  nextLeaderSlot := fun _ => none
  ticksPerSlot := 2
  hashesPerTick := some 2
  connected := true

def idleRecorder : PohRecorder Unit where
  poh := ⟨0, 0, 2, 2⟩
  tickHeight := 0
  startSlot := 0
  startTickHeight := 0
  tickCache := []
  workingBank := none
  leaderFirstTickHeight := none
  leaderLastTickHeight := 0
  graceTicks := 0
  sent := []
  registered := []

/-- A child of slot 0 whose first tick is produced before it is set: the tick, the transactions and
    the last tick are sent. -/
theorem run_recorded_late :
    ∃ r₁ r, idleRecorder.reset twoTicks 0 0 (some (1, 1)) = .ok r₁ ∧
      r₁.run twoTicks
        ([.tick, .tick] ++ .setBank ⟨1, 2, 2, 4⟩ :: [.record 1 7 [()], .tick, .tick, .tick]) =
          .ok r ∧
      (r.sent.map fun s => (s.tickHeight, s.entry.transactions)) = [(3, []), (3, [()]), (4, [])] ∧
      VerifiedFrom countingHashes .checked 0 (r.sent.map (·.entry)) ∧
      (SentEntry.ticks r.sent).map (·.tickHeight) = List.range' 3 (min r.tickHeight 4 - 2) := by
  obtain ⟨r₁, hreset⟩ : ∃ r₁, idleRecorder.reset twoTicks 0 0 (some (1, 1)) = .ok r₁ := ⟨_, rfl⟩
  obtain ⟨r, hrun, hrecorded⟩ :=
    (run_recorded twoTicks rfl (by decide) idleRecorder r₁ rfl rfl 0 0 (1, 1) hreset
    ⟨1, 2, 2, 4⟩ ⟨rfl, by decide, rfl, rfl⟩ [.tick, .tick] [.record 1 7 [()], .tick, .tick, .tick]
    (by simp [PohRecorder.Call.HasTransactions, PohRecorder.Call.KeepsBank])
    (by simp [PohRecorder.Call.HasTransactions, PohRecorder.Call.KeepsBank])).1
  have hsent : (idleRecorder.reset twoTicks 0 0 (some (1, 1)) >>= fun r₁ =>
      r₁.run twoTicks
        ([.tick, .tick] ++ .setBank ⟨1, 2, 2, 4⟩ :: [.record 1 7 [()], .tick, .tick, .tick])).map
      (fun r => r.sent.map fun s => (s.tickHeight, s.entry.transactions)) =
        .ok [(3, []), (3, [()]), (4, [])] := by
    decide +kernel
  rw [hreset, ok_bind, hrun] at hsent
  refine ⟨r₁, r, hreset, hrun, Except.ok.inj hsent, hrecorded.chain ?_, hrecorded.ticks⟩
  simp [PohRecorder.Call.IsHonest, twoTicks, countingHashes]

end Panoptes.Ledger
