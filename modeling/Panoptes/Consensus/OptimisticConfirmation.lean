import Panoptes.ForkChoice.Model
import Panoptes.Lib.SortedMap
import Panoptes.Vote.VoteState
import Mathlib.Algebra.Order.Floor.Semiring
import Mathlib.Data.Rat.Floor

/-!
# Optimistic confirmation

`core/src/cluster_info_vote_listener.rs` and `core/src/vote_stake_tracker.rs`: the votes seen in
gossip and in replay are counted for each hash of a slot, by stake and once for each vote account,
and a hash is reported when its stake crosses the threshold.

* `VoteStakeTracker.addVotePubkey` — one vote for one hash.
* `VoteListener.trackNewVotesAndNotifyConfirmations` — one vote transaction.
* `VoteListener.run` — any sequence of them.

Principal results:

* `VoteListener.tally_run` — after every run each tracker holds the stake of a set of accounts that
  voted for its hash, and every hash reported has more than the threshold.
* `confirmed_hash_unique_iff` — two hashes of one slot can be reported exactly when two disjoint
  groups of vote accounts each hold more than the threshold; with a threshold of a fortieth of the
  stake, most tables have such groups.
-/

set_option autoImplicit false

namespace Panoptes.Consensus

open Lib Sdk List
open VoteProgram (Vote)
open ForkChoice (EpochStakes)
open Std (ExtTreeMap ExtTreeSet)

/-! ## Trackers -/

/-- `VOTE_THRESHOLD_SIZE`, `1f64 / 40f64`. -/
def VOTE_THRESHOLD_SIZE : ℚ := 1 / 40

/-- `(total_stake as f64 * VOTE_THRESHOLD_SIZE) as u64`, with the product computed exactly. -/
def supermajorityStake (totalStake : Nat) : Nat := ⌊(totalStake : ℚ) * VOTE_THRESHOLD_SIZE⌋₊

/-- The accounts that voted for one hash.  Each counts once, so the sum of their stakes is at most
    the total stake and fits a `u64` when that does. -/
structure VoteStakeTracker where
  voted : ExtTreeSet Pubkey := ∅
  stake : Nat := 0

/-- `add_vote_pubkey`: the tracker, whether the stake has just crossed the threshold, and whether
    the vote is new. -/
def VoteStakeTracker.addVotePubkey (t : VoteStakeTracker) (votePubkey : Pubkey)
    (stake totalStake : Nat) : VoteStakeTracker × Bool × Bool :=
  if votePubkey ∈ t.voted then (t, false, false)
  else
    let newStake := t.stake + stake
    ({ voted := t.voted.insert votePubkey, stake := newStake },
      decide (t.stake ≤ supermajorityStake totalStake ∧ supermajorityStake totalStake < newStake),
        true)

/-- `SlotVoteTracker`: a tracker for each hash of the slot. -/
structure SlotVoteTracker where
  optimisticVotesTracker : ExtTreeMap Hash VoteStakeTracker := ∅

structure VoteTracker where
  slotVoteTrackers : ExtTreeMap Nat SlotVoteTracker := ∅

namespace VoteTracker

section

variable (vt : VoteTracker) (slot : Nat) (hash : Hash)

/-- `get_or_insert_slot_tracker`. -/
def slotTracker : SlotVoteTracker := vt.slotVoteTrackers[slot]?.getD {}

/-- `get_or_insert_optimistic_votes_tracker`. -/
def votesTracker : VoteStakeTracker :=
  (vt.slotTracker slot).optimisticVotesTracker[hash]?.getD {}

def trackOptimisticConfirmationVote (pubkey : Pubkey)
    (stake totalEpochStake : Nat) : VoteTracker × Bool × Bool :=
  let (t, isConfirmed, isNew) :=
    (vt.votesTracker slot hash).addVotePubkey pubkey stake totalEpochStake
  let slotTracker : SlotVoteTracker :=
    { optimisticVotesTracker := (vt.slotTracker slot).optimisticVotesTracker.insert hash t }
  ({ slotVoteTrackers := vt.slotVoteTrackers.insert slot slotTracker }, isConfirmed, isNew)

end

end VoteTracker

/-! ## The listener -/

/-- What the listener reads of the root bank. -/
structure RootBank where
  slot : Nat
  epochStakes : EpochStakes

structure VoteListener where
  voteTracker : VoteTracker := {}
  diff : ExtTreeMap Nat (ExtTreeMap Pubkey Bool) := ∅
  newOptimisticConfirmedSlots : List (Nat × Hash) := []
  /-- What was sent to `bank_notification_sender`, if there is one. -/
  bankNotifications : Option (List Nat)
  /-- What was sent to the subscriptions and to `verified_vote_sender`. -/
  notifiedVotes : List (Pubkey × Vote) := []

/-- One call of `track_new_votes_and_notify_confirmations`. -/
structure VoteCall where
  vote : Vote
  votePubkey : Pubkey
  rootBank : RootBank
  isGossipVote : Bool

/-- The stake of a vote account of an epoch, zero for an account that has none. -/
def stakeOf (stakes : ExtTreeMap Pubkey Nat) (votePubkey : Pubkey) : Nat :=
  stakes[votePubkey]?.getD 0

def totalStake (stakes : ExtTreeMap Pubkey Nat) : Nat := mapSum stakes fun _ stake => stake

namespace VoteListener

variable (l : VoteListener)

/-- A confirmation is reported and sent to the notification channel. -/
def confirm (slot : Nat) (hash : Hash) : VoteListener :=
  { l with
    newOptimisticConfirmedSlots := l.newOptimisticConfirmedSlots ++ [(slot, hash)]
    bankNotifications := l.bankNotifications.map (· ++ [slot]) }

/-- `diff.entry(slot).or_default().entry(pubkey).and_modify(..).or_insert(..)`. -/
def recordDiff (slot : Nat) (pubkey : Pubkey) (isGossipVote : Bool) : VoteListener :=
  let slotDiff := l.diff[slot]?.getD ∅
  let seen := (slotDiff[pubkey]?.map (· || isGossipVote)).getD isGossipVote
  { l with diff := l.diff.insert slot (slotDiff.insert pubkey seen) }

/-- The vote of a call is counted for its last slot. -/
def trackLast (c : VoteCall) (slot : Nat) (stakes : ExtTreeMap Pubkey Nat) : VoteListener × Bool :=
  let (voteTracker, isConfirmed, isNew) :=
    l.voteTracker.trackOptimisticConfirmationVote slot c.vote.hash
    c.votePubkey (stakeOf stakes c.votePubkey) (totalStake stakes)
  let tracked := { l with voteTracker }
  (if isConfirmed then tracked.confirm slot c.vote.hash else tracked, isNew)

/-- The loop over the slots of a vote, the greatest first. -/
def trackSlots (c : VoteCall) (lastVoteSlot : Nat) : List Nat → VoteListener → Bool → VoteListener
  | [], l, isNewVote =>
    if isNewVote then { l with notifiedVotes := l.notifiedVotes ++ [(c.votePubkey, c.vote)] } else l
  | slot :: slots, l, isNewVote =>
    match c.rootBank.epochStakes.stakes[c.rootBank.epochStakes.schedule.getEpoch slot]? with
    -- Without stake information the slot is ignored.
    | none => trackSlots c lastVoteSlot slots l isNewVote
    | some stakes =>
      if slot = lastVoteSlot then
        let (tracked, isNew) := l.trackLast c lastVoteSlot stakes
        -- A vote from replay that was seen before has no new information.
        if !isNew && !c.isGossipVote then tracked
        else
          trackSlots c lastVoteSlot slots (tracked.recordDiff slot c.votePubkey c.isGossipVote)
            isNew
      else
        trackSlots c lastVoteSlot slots (l.recordDiff slot c.votePubkey c.isGossipVote) isNewVote

def trackNewVotesAndNotifyConfirmations (c : VoteCall) : VoteListener :=
  match c.vote.lastVotedSlot with
  | none => l
  | some lastVoteSlot =>
    -- Slots at or before the root are ignored.
    trackSlots c lastVoteSlot (c.vote.slots.filter (c.rootBank.slot < ·)).reverse l false

/-- The calls of a run, from an empty tracker; `sender` says whether there is a notification
channel. -/
def run (sender : Bool) (calls : List VoteCall) : VoteListener :=
  calls.foldl trackNewVotesAndNotifyConfirmations { bankNotifications := if sender then some []
    else none }

end VoteListener

/-! ## What a vote counts for -/

def groupStake (stakes : ExtTreeMap Pubkey Nat) (voters : List Pubkey) : Nat :=
  (voters.map (stakeOf stakes)).sum

/-- The vote of a call is for the hash of its last slot. -/
def VoteCall.VotesFor (c : VoteCall) (slot : Nat) (hash : Hash) : Prop :=
  c.vote.lastVotedSlot = some slot ∧ c.vote.hash = hash

/-- The root bank's stakes are those of the table, as far as it has them. -/
structure RootBank.Within (bank : RootBank) (table : EpochStakes) : Prop where
  schedule : bank.epochStakes.schedule = table.schedule
  stakes : ∀ (epoch : Nat) (stakes : ExtTreeMap Pubkey Nat),
    bank.epochStakes.stakes[epoch]? = some stakes →
    table.stakes[epoch]? = some stakes

theorem VoteTracker.votesTracker_track (vt : VoteTracker) (slot slot' : Nat) (hash hash' : Hash)
    (pubkey : Pubkey) (stake totalEpochStake : Nat) :
    (vt.trackOptimisticConfirmationVote slot hash pubkey stake totalEpochStake).1.votesTracker slot'
      hash' = if slot' = slot ∧ hash' = hash then
        ((vt.votesTracker slot hash).addVotePubkey pubkey stake totalEpochStake).1
      else vt.votesTracker slot' hash' := by
  by_cases hslot : slot' = slot
  · subst hslot
    by_cases hhash : hash' = hash
    · subst hhash
      simp [trackOptimisticConfirmationVote, votesTracker, slotTracker]
    · simp [trackOptimisticConfirmationVote, votesTracker, slotTracker, getElem?_insert_ite, hhash]
  · simp [trackOptimisticConfirmationVote, votesTracker, slotTracker, getElem?_insert_ite, hslot]

/-- The votes of a tracker: its stake is that of a group of accounts, each of which voted for its
hash. -/
structure VoteStakeTracker.CountedBy (t : VoteStakeTracker) (stakes : ExtTreeMap Pubkey Nat)
    (voters : List Pubkey) : Prop where
  nodup : voters.Nodup
  voted : ∀ pubkey, pubkey ∈ t.voted ↔ pubkey ∈ voters
  stake : t.stake = groupStake stakes voters

variable {t : VoteStakeTracker} {stakes : ExtTreeMap Pubkey Nat} {voters : List Pubkey}
  {table : EpochStakes} {calls : List VoteCall} {slot : Nat} {l : VoteListener}

theorem VoteStakeTracker.CountedBy.add (h : t.CountedBy stakes voters)
    (pubkey : Pubkey) (total : Nat) :
    ∃ voters', (t.addVotePubkey pubkey (stakeOf stakes pubkey) total).1.CountedBy stakes voters' ∧
      ∀ v, v ∈ voters' → v = pubkey ∨ v ∈ voters := by
  unfold addVotePubkey
  split
  · exact ⟨voters, h, fun v hv => .inr hv⟩
  · rename_i hnew
    refine ⟨pubkey :: voters, ⟨?_, fun v => ?_, ?_⟩, fun v hv => mem_cons.mp hv⟩
    · exact nodup_cons.mpr ⟨fun hv => hnew ((h.voted pubkey).mpr hv), h.nodup⟩
    · rw [mem_insert_set, h.voted, mem_cons]
    · rw [h.stake, groupStake, groupStake, map_cons, sum_cons, Nat.add_comm]

/-! ## What every run has counted -/

/-- What is known of a listener after some calls, for one slot of a table. -/
structure Tally (table : EpochStakes) (slot : Nat) (calls : List VoteCall)
    (l : VoteListener) : Prop where
  counted : ∀ stakes, table.stakes[table.schedule.getEpoch slot]? = some stakes → ∀ hash, ∃ voters,
    (l.voteTracker.votesTracker slot hash).CountedBy stakes voters ∧
      ∀ v ∈ voters, ∃ c ∈ calls, c.votePubkey = v ∧ c.VotesFor slot hash
  reported : ∀ hash, (slot, hash) ∈ l.newOptimisticConfirmedSlots → 0 < slot ∧
    ∃ stakes, table.stakes[table.schedule.getEpoch slot]? = some stakes ∧
      supermajorityStake (totalStake stakes) < (l.voteTracker.votesTracker slot hash).stake

namespace Tally

variable {c : VoteCall} {last : Nat}

/-- Only the trackers and the reports matter. -/
theorem congr {l' : VoteListener} (h : Tally table slot calls l)
    (htracker : l'.voteTracker = l.voteTracker)
    (hreports : l'.newOptimisticConfirmedSlots = l.newOptimisticConfirmedSlots) :
    Tally table slot calls l' := by
  refine ⟨?_, ?_⟩
  · rw [htracker]
    exact h.counted
  · rw [htracker, hreports]
    exact h.reported

theorem le_stake_add (t : VoteStakeTracker) (pubkey : Pubkey) (stake total : Nat) :
    t.stake ≤ (t.addVotePubkey pubkey stake total).1.stake := by
  unfold VoteStakeTracker.addVotePubkey
  split
  · exact le_rfl
  · exact Nat.le_add_right _ _

theorem lt_of_confirmed {pubkey : Pubkey} {stake total : Nat}
    (h : (t.addVotePubkey pubkey stake total).2.1 = true) :
    supermajorityStake total < (t.addVotePubkey pubkey stake total).1.stake := by
  unfold VoteStakeTracker.addVotePubkey at h ⊢
  split at h
  · cases h
  · rename_i hnew
    rw [if_neg hnew]
    exact (of_decide_eq_true h).2

/-- **A vote is counted** for its last slot. -/
theorem trackLast {stakes : ExtTreeMap Pubkey Nat} (h : Tally table slot calls l) (hc : c ∈ calls)
    (hlast : c.vote.lastVotedSlot = some last) (hpos : 0 < last)
    (hstakes : table.stakes[table.schedule.getEpoch last]? = some stakes) :
    Tally table slot calls (l.trackLast c last stakes).1 := by
  have htracker : (l.trackLast c last stakes).1.voteTracker =
      (l.voteTracker.trackOptimisticConfirmationVote last c.vote.hash c.votePubkey
        (stakeOf stakes c.votePubkey) (totalStake stakes)).1 := by
    unfold VoteListener.trackLast
    dsimp only
    split <;> rfl
  refine ⟨fun stakes' hstakes' hash => ?_, fun hash hmem => ?_⟩
  · obtain ⟨voters, hcounted, hvoters⟩ := h.counted stakes' hstakes' hash
    rw [htracker, VoteTracker.votesTracker_track]
    by_cases hsame : slot = last ∧ hash = c.vote.hash
    · obtain ⟨rfl, rfl⟩ := hsame
      rw [if_pos ⟨rfl, rfl⟩]
      obtain rfl : stakes = stakes' := Option.some.inj (hstakes.symm.trans hstakes')
      obtain ⟨voters', hcounted', hnew⟩ := hcounted.add c.votePubkey (totalStake stakes)
      refine ⟨voters', hcounted', fun v hv => ?_⟩
      obtain rfl | hold := hnew v hv
      · exact ⟨c, hc, rfl, hlast, rfl⟩
      · exact hvoters v hold
    · rw [if_neg hsame]
      exact ⟨voters, hcounted, hvoters⟩
  · -- A report is either an old one, whose stake has not fallen, or the one this vote makes.
    have hcases : (slot, hash) ∈ l.newOptimisticConfirmedSlots ∨
        (slot = last ∧ hash = c.vote.hash ∧
          ((l.voteTracker.votesTracker last c.vote.hash).addVotePubkey c.votePubkey
            (stakeOf stakes c.votePubkey) (totalStake stakes)).2.1 = true) := by
      unfold VoteListener.trackLast at hmem
      dsimp only at hmem
      split at hmem
      · rename_i hconfirmed
        rcases mem_append.mp hmem with hold | hnew
        · exact .inl hold
        · obtain ⟨rfl, rfl⟩ := Prod.mk.inj (mem_singleton.mp hnew)
          exact .inr ⟨rfl, rfl, hconfirmed⟩
      · exact .inl hmem
    rw [htracker, VoteTracker.votesTracker_track]
    obtain hold | ⟨rfl, rfl, hconfirmed⟩ := hcases
    · obtain ⟨hslot, stakes', hstakes', hlt⟩ := h.reported hash hold
      refine ⟨hslot, stakes', hstakes', ?_⟩
      split
      · rename_i hsame
        obtain ⟨rfl, rfl⟩ := hsame
        exact hlt.trans_le (le_stake_add _ _ _ _)
      · exact hlt
    · rw [if_pos ⟨rfl, rfl⟩]
      exact ⟨hpos, stakes, hstakes, lt_of_confirmed hconfirmed⟩

/-- The loop over the slots of a vote keeps the tally. -/
theorem trackSlots (hc : c ∈ calls) (hwithin : c.rootBank.Within table)
    (hlast : c.vote.lastVotedSlot = some last) (slots : List Nat)
    (hpos : ∀ s ∈ slots, 0 < s) (isNew : Bool)
    (h : Tally table slot calls l) :
    Tally table slot calls (VoteListener.trackSlots c last slots l isNew) := by
  induction slots generalizing l isNew with
  | nil =>
    unfold VoteListener.trackSlots
    split
    · exact h.congr rfl rfl
    · exact h
  | cons s slots ih =>
    have hrest : ∀ s' ∈ slots, 0 < s' := fun s' hs' => hpos s' (mem_cons_of_mem s hs')
    unfold VoteListener.trackSlots
    split
    · exact ih hrest isNew h
    · rename_i stakes hstakes
      rw [hwithin.schedule] at hstakes
      split
      · rename_i hs
        subst hs
        have htracked := h.trackLast hc hlast (hpos s mem_cons_self) (hwithin.stakes _ _ hstakes)
        dsimp only
        split
        · exact htracked
        · exact ih hrest _ (htracked.congr rfl rfl)
      · exact ih hrest isNew (h.congr rfl rfl)

/-- **One call keeps the tally**, with its vote among those it may count. -/
theorem call (hc : c ∈ calls) (hwithin : c.rootBank.Within table) (h : Tally table slot calls l) :
    Tally table slot calls (l.trackNewVotesAndNotifyConfirmations c) := by
  unfold VoteListener.trackNewVotesAndNotifyConfirmations
  split
  · exact h
  · rename_i last hlast
    refine h.trackSlots hc hwithin hlast _ (fun s hs => ?_) false
    have hroot := (mem_filter.mp (mem_reverse.mp hs)).2
    exact (Nat.zero_le _).trans_lt (of_decide_eq_true hroot)

theorem foldl {rest : List VoteCall} (hsub : rest ⊆ calls)
    (hwithin : ∀ c ∈ calls, c.rootBank.Within table) (h : Tally table slot calls l) :
    Tally table slot calls (rest.foldl VoteListener.trackNewVotesAndNotifyConfirmations l) := by
  induction rest generalizing l with
  | nil => exact h
  | cons c rest ih =>
    have hc : c ∈ calls := hsub mem_cons_self
    exact ih (fun c' hc' => hsub (mem_cons_of_mem c hc')) (h.call hc (hwithin c hc))

end Tally

open VoteListener

theorem VoteStakeTracker.countedBy_nil (stakes : ExtTreeMap Pubkey Nat) :
    ({} : VoteStakeTracker).CountedBy stakes [] := by
  refine ⟨nodup_nil, fun pubkey => ?_, rfl⟩
  simp

/-- **What every run has counted**: the trackers hold the stakes of accounts that voted for their
    hash, and every hash reported has more than the threshold. -/
theorem VoteListener.tally_run (sender : Bool) (hwithin : ∀ c ∈ calls, c.rootBank.Within table)
    (slot : Nat) : Tally table slot calls (run sender calls) := by
  refine Tally.foldl (List.Subset.refl calls) hwithin ⟨fun stakes _ hash => ?_, fun hash hmem => ?_⟩
  · refine ⟨[], ?_, fun v hv => by cases hv⟩
    exact VoteStakeTracker.countedBy_nil stakes
  · cases hmem

/-! ## Two quorums -/

/-- No two disjoint groups of vote accounts of the slot's epoch each hold more than the
threshold. -/
def NoTwoQuorums (table : EpochStakes) (slot : Nat) : Prop :=
  ∀ stakes, table.stakes[table.schedule.getEpoch slot]? = some stakes →
    ∀ voters voters' : List Pubkey,
    (voters ++ voters').Nodup →
      groupStake stakes voters ≤ supermajorityStake (totalStake stakes) ∨
        groupStake stakes voters' ≤ supermajorityStake (totalStake stakes)

def OneHashEach (slot : Nat) (calls : List VoteCall) : Prop :=
  ∀ c ∈ calls, ∀ c' ∈ calls, ∀ hash hash', c.votePubkey = c'.votePubkey → c.VotesFor slot hash →
    c'.VotesFor slot hash' → hash = hash'

def ConfirmsOneHash (slot : Nat) (l : VoteListener) : Prop :=
  ∀ hash hash', (slot, hash) ∈ l.newOptimisticConfirmedSlots →
    (slot, hash') ∈ l.newOptimisticConfirmedSlots →
    hash = hash'

/-- Two hashes reported are two disjoint quorums. -/
theorem Tally.confirmsOneHash (h : Tally table slot calls l) (hone : OneHashEach slot calls)
    (hquorums : NoTwoQuorums table slot) :
    ConfirmsOneHash slot l := by
  intro hash hash' hmem hmem'
  by_contra hne
  obtain ⟨-, stakes, hstakes, hlt⟩ := h.reported hash hmem
  obtain ⟨-, stakes', hstakes', hlt'⟩ := h.reported hash' hmem'
  obtain rfl : stakes = stakes' := Option.some.inj (hstakes.symm.trans hstakes')
  obtain ⟨voters, hcounted, hvoters⟩ := h.counted stakes hstakes hash
  obtain ⟨voters', hcounted', hvoters'⟩ := h.counted stakes hstakes hash'
  -- An account in both groups would have voted for both hashes.
  have hdisjoint : (voters ++ voters').Nodup := by
    refine nodup_append.mpr ⟨hcounted.nodup, hcounted'.nodup, fun v hv v' hv' heq => ?_⟩
    subst heq
    obtain ⟨c, hc, hcv, hfor⟩ := hvoters v hv
    obtain ⟨c', hc', hcv', hfor'⟩ := hvoters' v hv'
    exact hne (hone c hc c' hc' hash hash' (hcv.trans hcv'.symm) hfor hfor')
  rw [hcounted.stake] at hlt
  rw [hcounted'.stake] at hlt'
  rcases hquorums stakes hstakes voters voters' hdisjoint with hle | hle
  · omega
  · omega

/-! ## Two quorums are two confirmations -/

/-- A vote for one slot, from gossip, handled under a root bank at slot 0. -/
def voteCall (table : EpochStakes) (slot : Nat) (hash : Hash) (votePubkey : Pubkey) : VoteCall where
  vote := Vote.new [slot] hash
  votePubkey := votePubkey
  rootBank := ⟨0, table⟩
  isGossipVote := true

section Voting

variable {hash : Hash}

/-- What such a vote does to the trackers and the reports. -/
theorem track_voteCall (hslot : 0 < slot)
    (hstakes : table.stakes[table.schedule.getEpoch slot]? = some stakes)
    (hash : Hash) (l : VoteListener) (v : Pubkey) :
    (l.trackNewVotesAndNotifyConfirmations (voteCall table slot hash v)).voteTracker =
        (l.trackLast (voteCall table slot hash v) slot stakes).1.voteTracker ∧
      (l.trackNewVotesAndNotifyConfirmations
        (voteCall table slot hash v)).newOptimisticConfirmedSlots =
        (l.trackLast (voteCall table slot hash v) slot stakes).1.newOptimisticConfirmedSlots := by
  have hslots : ((voteCall table slot hash v).vote.slots.filter
      ((voteCall table slot hash v).rootBank.slot < ·)).reverse = [slot] := by
    simp [voteCall, Vote.new, hslot]
  have hlast : (voteCall table slot hash v).vote.lastVotedSlot = some slot := rfl
  have hfound : (voteCall table slot hash v).rootBank.epochStakes.stakes[
      (voteCall table slot hash v).rootBank.epochStakes.schedule.getEpoch slot]? =
        some stakes := hstakes
  have hgossip : (voteCall table slot hash v).isGossipVote = true := rfl
  simp only [trackNewVotesAndNotifyConfirmations, hlast, hslots, trackSlots, hfound,
    hgossip, if_true, Bool.not_true, Bool.and_false, Bool.false_eq_true, if_false]
  split <;> exact ⟨rfl, rfl⟩

/-- Reports are never taken back. -/
theorem subset_trackLast (l : VoteListener) (c : VoteCall) (last : Nat)
    (stakes' : ExtTreeMap Pubkey Nat) :
    l.newOptimisticConfirmedSlots ⊆ (l.trackLast c last stakes').1.newOptimisticConfirmedSlots := by
  unfold trackLast
  dsimp only
  split
  · exact subset_append_left _ _
  · exact List.Subset.refl _

theorem votesTracker_trackLast (l : VoteListener) (v : Pubkey) (hash' : Hash) :
    (l.trackLast (voteCall table slot hash v) slot stakes).1.voteTracker.votesTracker slot hash' =
      if hash' = hash then
        ((l.voteTracker.votesTracker slot hash).addVotePubkey v (stakeOf stakes v)
          (totalStake stakes)).1
      else l.voteTracker.votesTracker slot hash' := by
  have htrack :=
    l.voteTracker.votesTracker_track slot slot hash hash' v (stakeOf stakes v) (totalStake stakes)
  simp only [true_and] at htrack
  rw [← htrack]
  unfold trackLast
  dsimp only [voteCall]
  split <;> rfl

section

variable (hslot : 0 < slot) (hstakes : table.stakes[table.schedule.getEpoch slot]? = some stakes)
variable {hash' : Hash}

include hslot hstakes

theorem reports_kept (voters : List Pubkey) (l : VoteListener) :
    l.newOptimisticConfirmedSlots ⊆ ((voters.map (voteCall table slot hash)).foldl
      trackNewVotesAndNotifyConfirmations l).newOptimisticConfirmedSlots := by
  induction voters generalizing l with
  | nil => exact List.Subset.refl _
  | cons v voters ih =>
    refine List.Subset.trans ?_ (ih _)
    rw [(track_voteCall hslot hstakes hash l v).2]
    exact subset_trackLast _ _ _ _

/-- Votes for one hash leave the tracker of another. -/
theorem votesTracker_other (hne : hash' ≠ hash) (voters : List Pubkey) (l : VoteListener) :
    ((voters.map (voteCall table slot hash)).foldl
      trackNewVotesAndNotifyConfirmations l).voteTracker.votesTracker slot hash' =
        l.voteTracker.votesTracker slot hash' := by
  induction voters generalizing l with
  | nil => rfl
  | cons v voters ih =>
    rw [map_cons, foldl_cons, ih, (track_voteCall hslot hstakes hash l v).1,
      votesTracker_trackLast, if_neg hne]

/-- **A group that crosses the threshold is reported**: accounts that have not voted for a hash vote
    for it one after another, and the vote with which their stake passes the threshold reports
    it. -/
theorem reports_crossing (voters : List Pubkey) (hnodup : voters.Nodup) (l : VoteListener)
    (hnew : ∀ v ∈ voters, v ∉ (l.voteTracker.votesTracker slot hash).voted)
    (hbelow : (l.voteTracker.votesTracker slot hash).stake ≤ supermajorityStake (totalStake stakes))
    (hcross : supermajorityStake (totalStake stakes) <
      (l.voteTracker.votesTracker slot hash).stake + groupStake stakes voters) :
    (slot, hash) ∈ ((voters.map (voteCall table slot hash)).foldl
      trackNewVotesAndNotifyConfirmations l).newOptimisticConfirmedSlots := by
  induction voters generalizing l with
  | nil =>
    simp only [groupStake, map_nil, sum_nil] at hcross
    omega
  | cons v voters ih =>
    obtain ⟨hv, hnodup⟩ := nodup_cons.mp hnodup
    obtain ⟨htracker, hreports⟩ := track_voteCall hslot hstakes hash l v
    have hnotin := hnew v mem_cons_self
    have hadd :
        (l.voteTracker.votesTracker slot hash).addVotePubkey v (stakeOf stakes v)
          (totalStake stakes) =
        (⟨(l.voteTracker.votesTracker slot hash).voted.insert v,
          (l.voteTracker.votesTracker slot hash).stake + stakeOf stakes v⟩,
          decide ((l.voteTracker.votesTracker slot hash).stake ≤
            supermajorityStake (totalStake stakes) ∧
            supermajorityStake (totalStake stakes) <
              (l.voteTracker.votesTracker slot hash).stake + stakeOf stakes v), true) := by
      rw [VoteStakeTracker.addVotePubkey, if_neg hnotin]
    by_cases hnow : supermajorityStake (totalStake stakes) <
        (l.voteTracker.votesTracker slot hash).stake + stakeOf stakes v
    · -- This vote crosses the threshold, and later votes leave its report.
      have hmem : (slot, hash) ∈
          (l.trackNewVotesAndNotifyConfirmations
            (voteCall table slot hash v)).newOptimisticConfirmedSlots := by
        rw [hreports]
        have hconfirmed : ((l.voteTracker.votesTracker slot hash).addVotePubkey v (stakeOf stakes v)
            (totalStake stakes)).2.1 = true := by
          rw [hadd]
          exact decide_eq_true ⟨hbelow, hnow⟩
        have hconfirmed' :
            (l.voteTracker.trackOptimisticConfirmationVote slot hash v (stakeOf stakes v)
            (totalStake stakes)).2.1 = true := hconfirmed
        simp only [trackLast, voteCall, Vote.new, hconfirmed']
        exact mem_append_right _ (mem_singleton.mpr rfl)
      exact reports_kept hslot hstakes voters _ hmem
    · have hvotes :
          (l.trackNewVotesAndNotifyConfirmations
            (voteCall table slot hash v)).voteTracker.votesTracker
          slot hash = ⟨(l.voteTracker.votesTracker slot hash).voted.insert v,
            (l.voteTracker.votesTracker slot hash).stake + stakeOf stakes v⟩ := by
        rw [htracker, votesTracker_trackLast, if_pos rfl, hadd]
      refine ih hnodup _ (fun u hu => ?_) ?_ ?_
      · rw [hvotes, mem_insert_set]
        rintro (rfl | hold)
        · exact hv hu
        · exact hnew u (mem_cons_of_mem v hu) hold
      · rw [hvotes]
        exact Nat.le_of_not_lt hnow
      · rw [hvotes]
        simp only [groupStake, map_cons, sum_cons] at hcross ⊢
        omega

theorem confirms_two (sender : Bool) {voters' : List Pubkey} (hnodup : (voters ++ voters').Nodup)
    (hne : hash' ≠ hash)
    (hquorum : supermajorityStake (totalStake stakes) < groupStake stakes voters)
    (hquorum' : supermajorityStake (totalStake stakes) < groupStake stakes voters') :
    (slot, hash) ∈ (run sender (voters.map (voteCall table slot hash) ++
        voters'.map (voteCall table slot hash'))).newOptimisticConfirmedSlots ∧
      (slot, hash') ∈ (run sender (voters.map (voteCall table slot hash) ++
        voters'.map (voteCall table slot hash'))).newOptimisticConfirmedSlots := by
  have hempty : ∀ h, (({} : VoteTracker).votesTracker slot h) = {} := by
    simp [VoteTracker.votesTracker, VoteTracker.slotTracker]
  obtain ⟨hnd, hnd', -⟩ := nodup_append.mp hnodup
  rw [run, foldl_append]
  refine ⟨reports_kept hslot hstakes voters' _ ?_, ?_⟩
  · refine reports_crossing hslot hstakes voters hnd _ (fun v _ => ?_) ?_ ?_
    · simp [hempty]
    · simp [hempty]
    · simpa [hempty] using hquorum
  · refine reports_crossing hslot hstakes voters' hnd' _ (fun v _ => ?_) ?_ ?_
    · simp [votesTracker_other hslot hstakes hne, hempty]
    · simp [votesTracker_other hslot hstakes hne, hempty]
    · simpa [votesTracker_other hslot hstakes hne, hempty] using hquorum'

end

theorem oneHashEach_two {voters' : List Pubkey} (hnodup : (voters ++ voters').Nodup)
    (hash' : Hash) :
    OneHashEach slot
      (voters.map (voteCall table slot hash) ++ voters'.map (voteCall table slot hash')) := by
  obtain ⟨-, -, hdisjoint⟩ := nodup_append.mp hnodup
  rintro c hc c' hc' h h' hpubkey ⟨-, rfl⟩ ⟨-, rfl⟩
  rcases mem_append.mp hc with hc | hc <;> rcases mem_append.mp hc' with hc' | hc' <;>
    obtain ⟨v, hv, rfl⟩ := mem_map.mp hc <;> obtain ⟨v', hv', rfl⟩ := mem_map.mp hc'
  · rfl
  · exact absurd hpubkey (hdisjoint v hv v' hv')
  · exact absurd hpubkey.symm (hdisjoint v' hv' v hv)
  · rfl

end Voting

/-- **When optimistic confirmation is unambiguous**: whatever votes are handled, with one hash of
    the slot from each account, at most one hash of the slot is reported, exactly if no two disjoint
    groups of accounts each hold more than the threshold.  (Slot 0 is never after the root, and its
    votes are ignored.) -/
theorem confirmed_hash_unique_iff (table : EpochStakes) (sender : Bool) (slot : Nat) :
    (∀ calls : List VoteCall, (∀ c ∈ calls, c.rootBank.Within table) → OneHashEach slot calls →
      ConfirmsOneHash slot (run sender calls)) ↔ slot = 0 ∨ NoTwoQuorums table slot := by
  constructor
  · intro h
    rcases Nat.eq_zero_or_pos slot with rfl | hslot
    · exact .inl rfl
    · refine .inr fun stakes hstakes voters voters' hnodup => ?_
      by_contra hquorums
      obtain ⟨hquorum, hquorum'⟩ := not_or.mp hquorums
      have hne : (1 : Hash) ≠ 0 := by decide
      have hwithin :
          ∀ c ∈ voters.map (voteCall table slot 0) ++ voters'.map (voteCall table slot 1),
          c.rootBank.Within table := by
        intro c hc
        have hbank : c.rootBank = ⟨0, table⟩ := by
          rcases mem_append.mp hc with hc | hc <;> obtain ⟨v, -, rfl⟩ := mem_map.mp hc <;> rfl
        rw [hbank]
        exact ⟨rfl, fun _ _ h => h⟩
      obtain ⟨hmem, hmem'⟩ :=
        confirms_two hslot hstakes sender hnodup hne (Nat.lt_of_not_le hquorum)
        (Nat.lt_of_not_le hquorum')
      exact hne.symm (h _ hwithin (oneHashEach_two hnodup 1) 0 1 hmem hmem')
  · rintro (rfl | hquorums) calls hwithin hone
    · intro hash hash' hmem
      exact absurd ((tally_run sender hwithin 0).reported hash hmem).1 (Nat.lt_irrefl 0)
    · exact (tally_run sender hwithin slot).confirmsOneHash hone hquorums

def twoAccounts : EpochStakes where
  schedule := .shortest
  stakes := (∅ : ExtTreeMap Nat (ExtTreeMap Pubkey Nat)).insert 0
    (((∅ : ExtTreeMap Pubkey Nat).insert 1 50).insert 2 50)

def twoVotes : List VoteCall := [voteCall twoAccounts 1 7 1, voteCall twoAccounts 1 8 2]

theorem two_hashes_confirmed :
    (∀ c ∈ twoVotes, c.rootBank.Within twoAccounts) ∧ OneHashEach 1 twoVotes ∧
    (run true twoVotes).newOptimisticConfirmedSlots = [(1, 7), (1, 8)] := by
  refine ⟨fun c hc => ?_,
    oneHashEach_two (show ([1] ++ [2] : List Pubkey).Nodup by decide) 8, by decide +kernel⟩
  have hbank : c.rootBank = ⟨0, twoAccounts⟩ := by
    rcases mem_pair.mp hc with rfl | rfl <;> rfl
  rw [hbank]
  exact ⟨rfl, fun _ _ h => h⟩

end Panoptes.Consensus
