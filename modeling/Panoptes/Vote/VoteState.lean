import Panoptes.Vote.AuthorizedVoters

/-!
# The vote state

`VoteState` of `programs/vote/src/vote_state/mod.rs`: the stack of votes with their lockouts, the
root, the credits and the authorized voters of one vote account.  The program runs in release
builds, so its `u64` additions wrap.

* `processSlot` — one vote: expired votes are popped from the back, the oldest vote of a full
  stack becomes the root and earns a credit, the new vote is pushed, the lockouts below it double.
* `checkSlotsAreValid`, `processVote` — a vote is checked against the slot hashes and its slots
  are processed in order.
* `processVoteUnchecked` — the same with slot hashes made from the vote itself, as the tower does.

Principal result: `processSlot_cases`, which says everything one vote can do to the state.
-/

set_option autoImplicit false

namespace Panoptes.VoteProgram

open Lib Sdk

def MAX_LOCKOUT_HISTORY : Nat := 31
def INITIAL_LOCKOUT : Nat := 2
def MAX_EPOCH_CREDITS_HISTORY : Nat := 64

/-- `VoteError` of `vote_instruction.rs`. -/
inductive VoteError where
  | voteTooOld
  | slotsMismatch
  | slotHashMismatch
  | emptySlots
  | timestampTooOld
  | tooSoonToReauthorize
  deriving DecidableEq, Repr

structure Vote where
  /-- A stack of votes starting with the oldest vote. -/
  slots : List Nat
  /-- Hash of the bank at the last slot. -/
  hash : Hash
  timestamp : Option Int
  deriving DecidableEq, Repr

def Vote.new (slots : List Nat) (hash : Hash) : Vote := ⟨slots, hash, none⟩

def Vote.lastVotedSlot (v : Vote) : Option Nat := v.slots.getLast?

/-! ## Lockouts -/

structure Lockout where
  slot : Nat
  confirmationCount : Nat
  deriving DecidableEq, Repr

def Lockout.new (slot : Nat) : Lockout := ⟨slot, 1⟩

/-- The number of slots for which the vote is locked. -/
def Lockout.lockout (l : Lockout) : Nat := INITIAL_LOCKOUT ^ l.confirmationCount % U64

/-- The last slot of the lockout. -/
def Lockout.expirationSlot (l : Lockout) : Nat := wrapAdd l.slot l.lockout

def Lockout.isExpired (l : Lockout) (slot : Nat) : Bool := decide (l.expirationSlot < slot)

structure BlockTimestamp where
  slot : Nat
  timestamp : Int
  deriving DecidableEq, Repr

/-- An entry of the credits history: `(epoch, credits, prev_credits)`. -/
structure EpochCredits where
  epoch : Nat
  credits : Nat
  prevCredits : Nat
  deriving DecidableEq, Repr

/-! ## The circular buffer of prior voters -/

def MAX_ITEMS : Nat := 32

/-- `CircBuf`: `idx` points at the last item. -/
structure CircBuf (α : Type) where
  buf : Vector α MAX_ITEMS
  idx : Fin MAX_ITEMS
  isEmpty : Bool
  deriving DecidableEq, Repr

def CircBuf.default {α : Type} (a : α) : CircBuf α :=
  ⟨Vector.replicate MAX_ITEMS a, ⟨MAX_ITEMS - 1, by decide⟩, true⟩

def CircBuf.append {α : Type} (c : CircBuf α) (item : α) : CircBuf α :=
  let idx : Fin MAX_ITEMS := ⟨(c.idx + 1) % MAX_ITEMS, Nat.mod_lt _ (by decide)⟩
  ⟨c.buf.set idx item, idx, false⟩

def CircBuf.last {α : Type} (c : CircBuf α) : Option α :=
  if c.isEmpty then none else some c.buf[c.idx]

/-! ## The state -/

structure VoteInit where
  nodePubkey : Pubkey
  authorizedVoter : Pubkey
  authorizedWithdrawer : Pubkey
  commission : Nat
  deriving DecidableEq, Repr

structure VoteState where
  nodePubkey : Pubkey
  authorizedWithdrawer : Pubkey
  commission : Nat
  votes : List Lockout
  rootSlot : Option Nat
  authorizedVoters : AuthorizedVoters
  priorVoters : CircBuf (Pubkey × Nat × Nat)
  epochCredits : List EpochCredits
  lastTimestamp : BlockTimestamp

namespace VoteState

def default : VoteState where
  nodePubkey := 0
  authorizedWithdrawer := 0
  commission := 0
  votes := []
  rootSlot := none
  authorizedVoters := AuthorizedVoters.default
  priorVoters := CircBuf.default (0, 0, 0)
  epochCredits := []
  lastTimestamp := ⟨0, 0⟩

def new (init : VoteInit) (clock : Clock) : VoteState :=
  { default with
    nodePubkey := init.nodePubkey
    authorizedVoters := AuthorizedVoters.new clock.epoch init.authorizedVoter
    authorizedWithdrawer := init.authorizedWithdrawer
    commission := init.commission }

def lastLockout (vs : VoteState) : Option Lockout := vs.votes.getLast?

def lastVotedSlot (vs : VoteState) : Option Nat := vs.lastLockout.map (·.slot)

def currentEpoch (vs : VoteState) : Nat :=
  match vs.epochCredits.getLast? with
  | none => 0
  | some e => e.epoch

def credits (vs : VoteState) : Nat :=
  match vs.epochCredits.getLast? with
  | none => 0
  | some e => e.credits

end VoteState

/-! ## Credits -/

/-- The entry that `increment_credits` increments is the last one of this list. -/
def openEpoch (ec : List EpochCredits) (epoch : Nat) : List EpochCredits :=
  match ec.getLast? with
  | none => [⟨epoch, 0, 0⟩]
  | some last =>
    if epoch ≠ last.epoch then
      let ec' :=
        if last.credits ≠ last.prevCredits then ec ++ [⟨epoch, last.credits, last.credits⟩]
        else ec.modifyLast fun e => { e with epoch := epoch }
      if ec'.length > MAX_EPOCH_CREDITS_HISTORY then ec'.drop 1 else ec'
    else ec

variable (vs : VoteState)

def VoteState.incrementCredits (epoch : Nat) : VoteState :=
  { vs with
    epochCredits := (openEpoch vs.epochCredits epoch).modifyLast fun e =>
      { e with credits := wrapAdd e.credits 1 } }

/-! ## One vote -/

/-- `pop_expired_votes`: pop from the back while the last vote is expired. -/
def VoteState.popExpiredVotes (slot : Nat) : VoteState :=
  { vs with votes := vs.votes.rdropWhile fun v => v.isExpired slot }

/-- `double_lockouts`: a vote that has more votes above it than ever before doubles its lockout. -/
def doubleLockouts (votes : List Lockout) : List Lockout :=
  votes.mapIdx fun i v =>
    if votes.length > i + v.confirmationCount then
      { v with confirmationCount := v.confirmationCount + 1 }
    else v

/-- Pop the oldest vote of a full stack: it becomes the root and earns a credit. -/
def VoteState.popRoot (epoch : Nat) : VoteState :=
  if vs.votes.length = MAX_LOCKOUT_HISTORY then
    match vs.votes with
    | [] => vs
    | root :: rest => { vs with votes := rest, rootSlot := some root.slot }.incrementCredits epoch
  else vs

def VoteState.processSlot (slot epoch : Nat) : VoteState :=
  if vs.lastVotedSlot.any (fun last => decide (slot ≤ last)) then vs
  else
    let vs' := (vs.popExpiredVotes slot).popRoot epoch
    { vs' with votes := doubleLockouts (vs'.votes ++ [Lockout.new slot]) }

theorem popRoot_full {vs : VoteState} {root : Lockout} {rest : List Lockout} (epoch : Nat)
    (hv : vs.votes = root :: rest) (hl : vs.votes.length = MAX_LOCKOUT_HISTORY) :
    vs.popRoot epoch =
      { vs.incrementCredits epoch with votes := rest, rootSlot := some root.slot } := by
  unfold VoteState.popRoot
  rw [if_pos hl]
  split
  · rename_i hnil
    rw [hnil] at hv
    cases hv
  · rename_i root' rest' hcons
    rw [hcons] at hv
    cases hv
    rfl

theorem popRoot_not_full {vs : VoteState} (epoch : Nat)
    (hl : vs.votes.length ≠ MAX_LOCKOUT_HISTORY) : vs.popRoot epoch = vs := if_neg hl

/-- What a vote for `slot` does when it is not ignored: the votes split into those that stay and
the expired ones at the back, and the first of the ones that stay is rooted if they fill the
stack. -/
structure Voted (vs : VoteState) (slot epoch : Nat) (kept expired : List Lockout)
    (vs' : VoteState) : Prop where
  newer : ∀ v, vs.lastVotedSlot = some v → v < slot
  kept_eq : kept = (vs.popExpiredVotes slot).votes
  split : vs.votes = kept ++ expired
  isExpired : ∀ v ∈ expired, v.expirationSlot < slot
  result :
    (kept.length ≠ MAX_LOCKOUT_HISTORY ∧
      vs' = { vs with votes := doubleLockouts (kept ++ [Lockout.new slot]) }) ∨
    (∃ root rest, kept = root :: rest ∧ kept.length = MAX_LOCKOUT_HISTORY ∧
      vs' = { vs.incrementCredits epoch with
        votes := doubleLockouts (rest ++ [Lockout.new slot]), rootSlot := some root.slot })

theorem Voted.kept_sublist {vs vs' : VoteState} {slot epoch : Nat} {kept expired : List Lockout}
    (h : Voted vs slot epoch kept expired vs') : kept.Sublist vs.votes := by
  rw [h.split]
  exact List.sublist_append_left _ _

/-- The votes below the new one: all that stay, or all but the new root. -/
theorem Voted.below {vs vs' : VoteState} {slot epoch : Nat} {kept expired : List Lockout}
    (h : Voted vs slot epoch kept expired vs') :
    ∃ below, vs'.votes = doubleLockouts (below ++ [Lockout.new slot]) ∧ below.Sublist kept ∧
      ((below = kept ∧ vs'.rootSlot = vs.rootSlot) ∨
        ∃ root, kept = root :: below ∧ vs'.rootSlot = some root.slot) := by
  rcases h.result with ⟨-, rfl⟩ | ⟨root, rest, rfl, -, rfl⟩
  · exact ⟨kept, rfl, List.Sublist.refl _, .inl ⟨rfl, rfl⟩⟩
  · exact ⟨rest, rfl, List.sublist_cons_self _ _, .inr ⟨root, rfl, rfl⟩⟩

/-- **Everything a vote can do to the state.** -/
theorem processSlot_cases (slot epoch : Nat) :
    ((∃ last, vs.lastVotedSlot = some last ∧ slot ≤ last) ∧ vs.processSlot slot epoch = vs) ∨
    ∃ kept expired, Voted vs slot epoch kept expired (vs.processSlot slot epoch) := by
  unfold VoteState.processSlot
  split
  · rename_i h
    rw [Option.any_eq_true] at h
    obtain ⟨last, hl, hle⟩ := h
    exact .inl ⟨⟨last, hl, by simpa using hle⟩, rfl⟩
  · rename_i h
    refine .inr ⟨vs.votes.rdropWhile fun v => v.isExpired slot,
      vs.votes.rtakeWhile fun v => v.isExpired slot, ?_, rfl, ?_, ?_, ?_⟩
    · intro v hv
      rw [hv] at h
      simpa using h
    · exact List.rdropWhile_append_rtakeWhile.symm
    · intro v hv
      have := List.mem_rtakeWhile_imp hv
      simpa [Lockout.isExpired] using this
    · by_cases hl : (vs.popExpiredVotes slot).votes.length = MAX_LOCKOUT_HISTORY
      · obtain ⟨root, rest, hcons⟩ := List.exists_cons_of_length_pos
          (by rw [hl]; decide)
        rw [popRoot_full epoch hcons hl]
        exact .inr ⟨root, rest, hcons, hl, rfl⟩
      · rw [popRoot_not_full epoch hl]
        exact .inl ⟨hl, rfl⟩

/-! ## Checking a vote against the slot hashes -/

/-- The loop of `check_slots_are_valid`: `i` is an index into the slots of the vote, oldest first,
and `j` one into the slot hashes, newest first. -/
def checkSlotsLoop (last : Option Nat) (slots : List Nat) (slotHashes : List SlotHash) :
    Nat → Nat → Nat → Except Panic (Nat × Nat)
  | 0, _, _ => .error .fuel
  | fuel + 1, i, j =>
    if i < slots.length ∧ j > 0 then do
      let slot ← index slots i
      if last.any (fun l => decide (slot ≤ l)) then
        checkSlotsLoop last slots slotHashes fuel (i + 1) j
      else
        let slotHash ← index slotHashes (j - 1)
        if slot ≠ slotHash.1 then checkSlotsLoop last slots slotHashes fuel i (j - 1)
        else checkSlotsLoop last slots slotHashes fuel (i + 1) (j - 1)
    else .ok (i, j)

/-- `check_slots_are_valid`.  Each round of the loop uses up a slot or a slot hash. -/
def VoteState.checkSlotsAreValid (vote : Vote) (slotHashes : List SlotHash) :
    Res VoteError Unit := do
  let ij ← liftPanic (checkSlotsLoop vs.lastVotedSlot vote.slots slotHashes
    (vote.slots.length + slotHashes.length + 1) 0 slotHashes.length)
  if ij.2 = slotHashes.length then .error (.error .voteTooOld)
  else if ij.1 ≠ vote.slots.length then .error (.error .slotsMismatch)
  else
    let slotHash ← liftPanic (index slotHashes ij.2)
    if slotHash.2 ≠ vote.hash then .error (.error .slotHashMismatch) else .ok ()

/-- The loop ends within its fuel and both indices stay in bounds. -/
theorem checkSlotsLoop_ok (last : Option Nat) (slots : List Nat) (slotHashes : List SlotHash) :
    ∀ fuel i j, i ≤ slots.length → j ≤ slotHashes.length → slots.length - i + j < fuel →
      ∃ i' j', checkSlotsLoop last slots slotHashes fuel i j = .ok (i', j') ∧
        i' ≤ slots.length ∧ j' ≤ j
  | 0, _, _, _, _, h => by omega
  | fuel + 1, i, j, hi, hj, h => by
    unfold checkSlotsLoop
    split
    · rename_i hc
      rw [index_eq_ok hc.1, index_eq_ok (show j - 1 < slotHashes.length by omega)]
      simp only [bind, Except.bind]
      split
      · exact checkSlotsLoop_ok last slots slotHashes fuel (i + 1) j (by omega) hj (by omega)
      · split
        · obtain ⟨i', j', he, hi', hj'⟩ :=
            checkSlotsLoop_ok last slots slotHashes fuel i (j - 1) hi (by omega) (by omega)
          exact ⟨i', j', he, hi', by omega⟩
        · obtain ⟨i', j', he, hi', hj'⟩ := checkSlotsLoop_ok last slots slotHashes fuel (i + 1)
            (j - 1) (by omega) (by omega) (by omega)
          exact ⟨i', j', he, hi', by omega⟩
    · exact ⟨i, j, rfl, hi, Nat.le_refl _⟩

/-- **Checking a vote never aborts**: it succeeds or returns a `VoteError`. -/
theorem checkSlotsAreValid_noPanic (vote : Vote) (slotHashes : List SlotHash) :
    NoPanic (vs.checkSlotsAreValid vote slotHashes) := by
  obtain ⟨i, j, he, -, hj⟩ := checkSlotsLoop_ok vs.lastVotedSlot vote.slots slotHashes
    (vote.slots.length + slotHashes.length + 1) 0 slotHashes.length (Nat.zero_le _)
    (Nat.le_refl _) (by omega)
  unfold VoteState.checkSlotsAreValid
  rw [he]
  simp only [liftPanic_ok, bind, Except.bind]
  by_cases hj' : j = slotHashes.length
  · rw [if_pos hj']
    exact NoPanic.error _
  · rw [if_neg hj', index_eq_ok (show j < slotHashes.length by omega)]
    simp only [liftPanic_ok]
    split
    · exact NoPanic.error _
    · split
      · exact NoPanic.error _
      · exact NoPanic.ok _

/-! ## Whole votes -/

/-- `VoteState::process_vote`; an error leaves the state as it was. -/
def VoteState.processVote (vote : Vote) (slotHashes : List SlotHash)
    (epoch : Nat) : Res VoteError VoteState :=
  if vote.slots.isEmpty then .error (.error .emptySlots)
  else do
    let _ ← vs.checkSlotsAreValid vote slotHashes
    .ok (vote.slots.foldl (fun vs slot => vs.processSlot slot epoch) vs)

theorem processVote_noPanic (vote : Vote) (slotHashes : List SlotHash)
    (epoch : Nat) : NoPanic (vs.processVote vote slotHashes epoch) := by
  unfold VoteState.processVote
  split
  · exact NoPanic.error _
  · exact (checkSlotsAreValid_noPanic vs vote slotHashes).bind fun _ => NoPanic.ok _

/-- `process_vote_unchecked`: an error is ignored. -/
def VoteState.processVoteUnchecked (vote : Vote) : Except Panic VoteState :=
  match vs.processVote vote (vote.slots.reverse.map fun s => (s, vote.hash)) vs.currentEpoch with
  | .ok vs' => .ok vs'
  | .error (.error _) => .ok vs
  | .error (.panic p) => .error p

def VoteState.processSlotVoteUnchecked (slot : Nat) : Except Panic VoteState :=
  vs.processVoteUnchecked (Vote.new [slot] 0)

def VoteState.processTimestamp (slot : Nat) (timestamp : Int) : Res VoteError VoteState :=
  if (slot < vs.lastTimestamp.slot ∨ timestamp < vs.lastTimestamp.timestamp) ∨
      (slot = vs.lastTimestamp.slot ∧ BlockTimestamp.mk slot timestamp ≠ vs.lastTimestamp ∧
        vs.lastTimestamp.slot ≠ 0) then
    .error (.error .timestampTooOld)
  else .ok { vs with lastTimestamp := ⟨slot, timestamp⟩ }

theorem processTimestamp_noPanic (slot : Nat) (timestamp : Int) :
    NoPanic (vs.processTimestamp slot timestamp) := by
  unfold VoteState.processTimestamp
  split
  · exact NoPanic.error _
  · exact NoPanic.ok _

end Panoptes.VoteProgram
