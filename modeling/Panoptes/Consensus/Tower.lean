import Panoptes.Lib.Forest
import Panoptes.Vote.CheckSlots

/-!
# The tower of a validator

`Tower` of `core/src/consensus.rs`: the validator's own copy of its vote state, from which it
decides whether it may vote for a slot without breaking a lockout.

* `isLockedOut` — simulate the vote and look whether every vote left on the stack is an ancestor of
  the slot.  The root must be one: that is asserted.
* `newVote`, `recordBankVote` — the vote a validator sends holds every slot of the simulated stack
  that the bank has not seen; recording it processes all of them.
* `TowerStep`, `TowerRun` — a run of the tower on a tree of slots.

Principal result: `tower_lockout_safety`.  The stack is a chain of one fork at every moment, and a
vote is only ever cast against an earlier vote whose lockout is over.
-/

set_option autoImplicit false

namespace Panoptes.Consensus

open Std Lib Sdk VoteProgram List

/-- The tower; the fields that only restarts and the switch threshold use are left out. -/
structure Tower where
  lockouts : VoteState
  lastVote : Vote

/-- `HashMap<Slot, HashSet<Slot>>` of ancestors. -/
abbrev AncestorMap := ExtTreeMap Nat (Finset Nat)

namespace Tower

/-- `Tower::default`: the root is slot 0. -/
def default : Tower where
  lockouts := { VoteState.default with rootSlot := some 0 }
  lastVote := ⟨[], 0, none⟩

def newVote (localVoteState : VoteState) (slot : Nat) (hash : Hash)
    (lastVotedSlotInBank : Option Nat) : Except Panic (Vote × Nat) := do
  let localVoteState ← localVoteState.processVoteUnchecked (Vote.new [slot] hash)
  let slots := match lastVotedSlotInBank with
    | some last => (localVoteState.votes.map (·.slot)).dropWhile fun s => decide (s ≤ last)
    | none => localVoteState.votes.map (·.slot)
  .ok (Vote.new slots hash, localVoteState.votes.length - 1)

def root (t : Tower) : Except Panic Nat := unwrap t.lockouts.rootSlot

/-- `Tower::record_bank_vote`: the new tower, and the new root if there is one. -/
def recordBankVote (t : Tower) (vote : Vote) : Except Panic (Tower × Option Nat) := do
  let oldRoot ← t.root
  let lockouts ← t.lockouts.processVoteUnchecked vote
  let t' : Tower := ⟨lockouts, vote⟩
  let newRoot ← t'.root
  .ok (t', if oldRoot ≠ newRoot then some newRoot else none)

def lastVotedSlot (t : Tower) : Option Nat := t.lastVote.lastVotedSlot

def isRecent (t : Tower) (slot : Nat) : Bool :=
  match t.lockouts.lastVotedSlot with
  | some last => !decide (slot ≤ last)
  | none => true

def isLockedOut (t : Tower) (slot : Nat) (ancestors : AncestorMap) : Except Panic Bool :=
  match ancestors[slot]? with
  | none => .error .assertion
  | some slotAncestors =>
    if !t.isRecent slot then .ok true
    else do
      let lockouts ← t.lockouts.processSlotVoteUnchecked slot
      if lockouts.votes.any fun v => decide (v.slot ≠ slot ∧ v.slot ∉ slotAncestors) then .ok true
      else
        match lockouts.rootSlot with
        | none => .ok false
        | some rootSlot =>
          if slot ≠ rootSlot then do
            let _ ← assert (rootSlot ∈ slotAncestors)
            .ok false
          else .ok false

end Tower

/-! ## Runs -/

variable {T : Forest Nat} {t t' : Tower} {slot index : Nat} {vs : VoteState} {last : Option Nat}
  {hash : Hash} {vote : Vote}

/-- The sets of an ancestor map hold only ancestors in the tree. -/
def AncestorsIn (T : Forest Nat) (ancestors : AncestorMap) : Prop :=
  ∀ s A, ancestors[s]? = some A → ∀ a ∈ A, T.IsAncestor a s

/-- One step of a run: `slot` is checked against the lockouts and then added to the tower with the
vote made for the bank. -/
structure TowerStep (T : Forest Nat) (t : Tower) (slot : Nat) (t' : Tower) : Prop where
  step : ∃ (ancestors : AncestorMap) (hash : Hash) (lastVotedSlotInBank : Option Nat) (vote : Vote)
      (index : Nat) (newRoot : Option Nat),
    AncestorsIn T ancestors ∧
    t.isLockedOut slot ancestors = .ok false ∧
    Tower.newVote t.lockouts slot hash lastVotedSlotInBank = .ok (vote, index) ∧
    slot ∈ vote.slots ∧
    t.recordBankVote vote = .ok (t', newRoot)

/-- A run of the tower, with the recorded slots in order. -/
inductive TowerRun (T : Forest Nat) (t₀ : Tower) : List Nat → Tower → Prop where
  | nil : TowerRun T t₀ [] t₀
  | step {slots : List Nat} {t t' : Tower} {slot : Nat} (h : TowerRun T t₀ slots t)
      (hs : TowerStep T t slot t') : TowerRun T t₀ (slots ++ [slot]) t'

/-- The votes of a stack lie on one fork: each is an ancestor of all later ones. -/
def Chain (T : Forest Nat) (votes : List Lockout) : Prop :=
  votes.Pairwise fun v w => T.IsAncestor v.slot w.slot

theorem Chain.slots {votes : List Lockout} (h : Chain T votes) :
    votes.Pairwise fun v w => v.slot < w.slot := h.imp fun ha => ha.lt

/-! ## The check and the recorded vote agree -/

theorem newer_of_isRecent (h : t.isRecent slot = true) :
    ∀ last, t.lockouts.lastVotedSlot = some last → last < slot := by
  intro last hl
  simp only [Tower.isRecent, hl] at h
  simpa using h

/-- A vote for a slot newer than the last one, however its hash reads, is `process_slot`. -/
theorem processVoteUnchecked_single (hash : Hash)
    (hnew : ∀ last, vs.lastVotedSlot = some last → last < slot) :
    vs.processVoteUnchecked (Vote.new [slot] hash) = .ok (vs.processSlot slot vs.currentEpoch) :=
  @processVoteUnchecked_eq vs [] slot hash (fun _ h => by cases h) hnew

/-- What a negative answer of the lockout check says about the simulated stack. -/
theorem isLockedOut_false {ancestors : AncestorMap} (h : t.isLockedOut slot ancestors = .ok false) :
    ∃ A, ancestors[slot]? = some A ∧
      (∀ last, t.lockouts.lastVotedSlot = some last → last < slot) ∧
      (∀ v ∈ (t.lockouts.processSlot slot t.lockouts.currentEpoch).votes,
        v.slot ≠ slot → v.slot ∈ A) ∧
      (∀ r, (t.lockouts.processSlot slot t.lockouts.currentEpoch).rootSlot = some r →
        slot ≠ r → r ∈ A) := by
  unfold Tower.isLockedOut at h
  split at h
  · cases h
  rename_i A hA
  split at h
  · cases h
  rename_i hrec
  have hnew := newer_of_isRecent (show t.isRecent slot = true by simpa using hrec)
  rw [VoteState.processSlotVoteUnchecked, processVoteUnchecked_single 0 hnew] at h
  simp only [bind, Except.bind] at h
  split at h
  · cases h
  rename_i hvotes
  refine ⟨A, hA, hnew, ?_, ?_⟩
  · intro v hv hne
    by_contra hnot
    exact hvotes (any_eq_true.mpr ⟨v, hv, by simp [hne, hnot]⟩)
  · intro r hr hne
    simp only [hr] at h
    rw [if_pos hne] at h
    by_contra hnot
    simp [assert, hnot] at h

/-- In a stack with increasing slots the last vote is the newest one. -/
theorem le_lastVotedSlot (h : vs.votes.Pairwise fun v w => v.slot < w.slot) {v : Lockout}
    (hv : v ∈ vs.votes) : ∃ last, vs.lastVotedSlot = some last ∧ v.slot ≤ last := by
  rcases hl : vs.lastVotedSlot with - | last
  · simp only [VoteState.lastVotedSlot, VoteState.lastLockout, Option.map_eq_none_iff,
      getLast?_eq_none_iff] at hl
    rw [hl] at hv
    cases hv
  · refine ⟨last, rfl, Nat.le_of_lt_succ (lt_of_last h ?_ v hv)⟩
    intro l hl'
    have : some last = some l := hl.symm.trans hl'
    cases this
    exact Nat.lt_succ_self _

/-- The slots of the vote that is sent: some old ones, then the new slot. -/
theorem newVote_slots (hslots : vs.votes.Pairwise fun v w => v.slot < w.slot)
    (hnew : ∀ last, vs.lastVotedSlot = some last → last < slot)
    (h : Tower.newVote vs slot hash last = .ok (vote, index)) (hmem : slot ∈ vote.slots) :
    ∃ old, vote = Vote.new (old ++ [slot]) hash ∧
      ∀ s ∈ old, ∃ last, vs.lastVotedSlot = some last ∧ s ≤ last := by
  rcases processSlot_cases vs slot vs.currentEpoch with ⟨⟨l, hl, hle⟩, -⟩ | ⟨kept, expired, hv⟩
  · have := hnew l hl
    omega
  obtain ⟨below, hbelow, hsub, -⟩ := hv.below
  simp only [Tower.newVote, processVoteUnchecked_single hash hnew, bind, Except.bind, hbelow,
    map_slot_push] at h
  obtain ⟨rfl, -⟩ := h
  -- what the bank has not seen is a suffix of the stack, and not an empty one
  obtain ⟨skipped, hsuffix⟩ : (match last with
      | some last => (below.map (·.slot) ++ [slot]).dropWhile fun s => decide (s ≤ last)
      | none => below.map (·.slot) ++ [slot]) <:+ below.map (·.slot) ++ [slot] := by
    cases last with
    | none => exact suffix_rfl
    | some last => exact dropWhile_suffix _
  rcases eq_nil_or_concat (match last with
      | some last => (below.map (·.slot) ++ [slot]).dropWhile fun s => decide (s ≤ last)
      | none => below.map (·.slot) ++ [slot]) with hnil | ⟨old, s, hold'⟩
  · simp only [Vote.new, hnil, not_mem_nil] at hmem
  · rw [hold', concat_eq_append, ← append_assoc] at hsuffix
    obtain ⟨hpre, hlast⟩ := append_inj' hsuffix rfl
    cases hlast
    refine ⟨old, by rw [hold', concat_eq_append], fun s hs => ?_⟩
    have hs' : s ∈ below.map (·.slot) := by
      rw [← hpre]
      exact mem_append_right _ hs
    obtain ⟨v, hvb, rfl⟩ := mem_map.mp hs'
    exact le_lastVotedSlot hslots ((hsub.trans hv.kept_sublist).mem hvb)

/-- Recording the vote that is sent is `process_slot` of the new slot. -/
theorem recordBankVote_newVote {root : Nat}
    (hslots : t.lockouts.votes.Pairwise fun v w => v.slot < w.slot)
    (hnew : ∀ last, t.lockouts.lastVotedSlot = some last → last < slot)
    (hroot : t.lockouts.rootSlot = some root)
    (hvote : Tower.newVote t.lockouts slot hash last = .ok (vote, index))
    (hmem : slot ∈ vote.slots) :
    ∃ root', (t.lockouts.processSlot slot t.lockouts.currentEpoch).rootSlot = some root' ∧
      vote.lastVotedSlot = some slot ∧
      t.recordBankVote vote = .ok (⟨t.lockouts.processSlot slot t.lockouts.currentEpoch, vote⟩,
        if root ≠ root' then some root' else none) := by
  obtain ⟨old, rfl, hold⟩ := newVote_slots hslots hnew hvote hmem
  obtain ⟨root', hroot'⟩ : ∃ root', (t.lockouts.processSlot slot t.lockouts.currentEpoch).rootSlot =
    some root' := by
    rcases processSlot_cases t.lockouts slot t.lockouts.currentEpoch with
      ⟨-, heq⟩ | ⟨kept, expired, hv⟩
    · exact ⟨root, by rw [heq, hroot]⟩
    · obtain ⟨-, -, -, ⟨-, hr⟩ | ⟨r, -, hr⟩⟩ := hv.below
      · exact ⟨root, hr.trans hroot⟩
      · exact ⟨r.slot, hr⟩
  refine ⟨root', hroot', getLast?_concat, ?_⟩
  simp [Tower.recordBankVote, Tower.root, hroot, processVoteUnchecked_eq hold hnew, hroot',
    bind, Except.bind]

/-- **The vote that is recorded is the vote that was checked.**  A step of the tower processes the
new slot on the stack that `is_locked_out` simulated and nothing else, so every vote that does not
expire is an ancestor of the slot. -/
theorem TowerStep.voted (h : TowerStep T t slot t')
    (hslots : t.lockouts.votes.Pairwise fun v w => v.slot < w.slot) :
    ∃ kept expired, Voted t.lockouts slot t.lockouts.currentEpoch kept expired t'.lockouts ∧
      ∀ v ∈ kept, T.IsAncestor v.slot slot := by
  obtain ⟨ancestors, hash, last, vote, index, newRoot, hanc, hcheck, hvote, hmem, hrecord⟩ := h.step
  obtain ⟨A, hA, hnew, hvotes, hroot⟩ := isLockedOut_false hcheck
  have ht' : t'.lockouts = t.lockouts.processSlot slot t.lockouts.currentEpoch := by
    obtain ⟨oldRoot, hunwrap, -⟩ := bind_eq_ok.mp hrecord
    have holdRoot : t.lockouts.rootSlot = some oldRoot := by
      unfold Tower.root at hunwrap
      cases hr : t.lockouts.rootSlot <;> rw [hr] at hunwrap <;> cases hunwrap
      rfl
    obtain ⟨_, -, -, hrecorded⟩ := recordBankVote_newVote hslots hnew holdRoot hvote hmem
    rw [hrecorded] at hrecord
    cases hrecord
    rfl
  rw [← ht'] at hvotes hroot
  rcases processSlot_cases t.lockouts slot t.lockouts.currentEpoch with
    ⟨⟨l, hl, hle⟩, -⟩ | ⟨kept, expired, hv⟩
  · have := hnew l hl
    omega
  rw [← ht'] at hv
  refine ⟨kept, expired, hv, fun v hk => hanc slot A hA _ ?_⟩
  have hlt := lt_of_last hslots hnew v (hv.kept_sublist.mem hk)
  obtain ⟨below, hbelow, -, hcase⟩ := hv.below
  have hbelow_mem : v ∈ below → v.slot ∈ A := by
    intro hb
    have hs : v.slot ∈ t'.lockouts.votes.map (·.slot) := by
      rw [hbelow, map_slot_push]
      exact mem_append_left _ (mem_map_of_mem hb)
    obtain ⟨w, hw, hws⟩ := mem_map.mp hs
    rw [← hws]
    exact hvotes w hw (by omega)
  -- a vote that stays is still on the stack or is the new root
  rcases hcase with ⟨rfl, -⟩ | ⟨root, rfl, hr⟩
  · exact hbelow_mem hk
  · rcases mem_cons.mp hk with rfl | hk
    · exact hroot v.slot hr (by omega)
    · exact hbelow_mem hk

/-- The new slot is newer than all that the bank has seen, so it is sent. -/
theorem mem_newVote (hash : Hash) (hnew : ∀ last, vs.lastVotedSlot = some last → last < slot)
    (hbank : ∀ l, last = some l → l < slot) :
    ∃ vote index, Tower.newVote vs slot hash last = .ok (vote, index) ∧ slot ∈ vote.slots := by
  rcases processSlot_cases vs slot vs.currentEpoch with ⟨⟨l, hl, hle⟩, -⟩ | ⟨kept, expired, hv⟩
  · exact absurd (hnew l hl) (Nat.not_lt.mpr hle)
  obtain ⟨below, hbelow, -, -⟩ := hv.below
  refine ⟨_, _, by rw [Tower.newVote, processVoteUnchecked_single hash hnew, ok_bind], ?_⟩
  rw [hbelow, map_slot_push]
  have hmem : slot ∈ below.map (·.slot) ++ [slot] := mem_concat_self
  cases last with
  | none => exact hmem
  | some l =>
    rw [← takeWhile_append_dropWhile (l := below.map (·.slot) ++ [slot])] at hmem
    refine (mem_append.mp hmem).resolve_left fun htaken => ?_
    have hle := mem_takeWhile_imp htaken
    have := hbank l rfl
    simp only [decide_eq_true_eq] at hle
    omega

/-- **Recording a vote is the vote that was simulated.** -/
theorem recordBankVote_simulated (t : Tower) (slot : Nat) (hash : Hash)
    (last : Option Nat) {root : Nat}
    (hstack : StackOk t.lockouts.votes) (hroot : t.lockouts.rootSlot = some root)
    (hnew : ∀ l, t.lockouts.lastVotedSlot = some l → l < slot)
    (hbank : ∀ l, last = some l → l < slot) :
    ∃ vote index t' newRoot, Tower.newVote t.lockouts slot hash last = .ok (vote, index) ∧
      t.recordBankVote vote = .ok (t', newRoot) ∧
      t'.lockouts = t.lockouts.processSlot slot t.lockouts.currentEpoch ∧
      t.lockouts.processSlotVoteUnchecked slot = .ok t'.lockouts ∧
      (∀ r, newRoot = some r ↔ t'.lockouts.rootSlot = some r ∧ t.lockouts.rootSlot ≠ some r) ∧
      t'.lastVotedSlot = some slot ∧ t'.lockouts.lastVotedSlot = some slot := by
  obtain ⟨vote, index, hvote, hmem⟩ := mem_newVote hash hnew hbank
  obtain ⟨root', hroot', hlast, hrecord⟩ :=
    recordBankVote_newVote hstack.slots hnew hroot hvote hmem
  refine ⟨vote, index, _, _, hvote, hrecord, rfl, processVoteUnchecked_single 0 hnew,
    fun r => ?_, hlast, ?_⟩
  · rw [hroot, hroot']
    by_cases heq : root = root'
    · simp [heq]
    · rw [if_pos heq]
      exact ⟨fun h => ⟨h, fun h' => heq (Option.some.inj (h'.trans h.symm))⟩, And.left⟩
  · rcases processSlot_cases t.lockouts slot t.lockouts.currentEpoch with
      ⟨⟨l, hl, hle⟩, -⟩ | ⟨kept, expired, hv⟩
    · exact absurd (hnew l hl) (Nat.not_lt.mpr hle)
    · exact hv.lastVotedSlot

def votedOne : Tower := ⟨{ Tower.default.lockouts with votes := [⟨1, 1⟩] }, Vote.new [1] 0⟩

/-- The vote after slot 1 is still locked out, so that the next one is for both slots. -/
theorem recordBankVote_simulated_votedOne :
    StackOk votedOne.lockouts.votes ∧ ∃ vote t' newRoot, vote.slots = [1, 2] ∧
      votedOne.recordBankVote vote = .ok (t', newRoot) ∧ t'.lastVotedSlot = some 2 := by
  have hstack : StackOk votedOne.lockouts.votes :=
    ⟨by decide, by decide, by decide, by decide⟩
  obtain ⟨vote, index, t', newRoot, hvote, hrecord, -, -, -, hlast, -⟩ :=
    recordBankVote_simulated votedOne 2 0 none hstack rfl (by decide) (by decide)
  have hslots : (Tower.newVote votedOne.lockouts 2 0 none).toOption.map (fun r => r.1.slots) =
      some [1, 2] := by
    decide +kernel
  rw [hvote] at hslots
  exact ⟨hstack, vote, t', newRoot, Option.some.inj hslots, hrecord, hlast⟩

/-! ## Safety -/

/-- The votes below the new one are its ancestors, and the stack stays on one fork. -/
theorem TowerStep.chain (h : TowerStep T t slot t') (hc : Chain T t.lockouts.votes) :
    Chain T t'.lockouts.votes ∧ ∀ v ∈ t'.lockouts.votes, v.slot < slot →
      T.IsAncestor v.slot slot := by
  obtain ⟨kept, expired, hv, hkept⟩ := h.voted hc.slots
  obtain ⟨below, hbelow, hsub, -⟩ := hv.below
  have hslots := congrArg (List.map (·.slot)) hbelow
  rw [map_slot_push] at hslots
  have hanc : ∀ s ∈ below.map (·.slot), T.IsAncestor s slot := by
    intro s hs
    obtain ⟨v, hvb, rfl⟩ := mem_map.mp hs
    exact hkept v (hsub.mem hvb)
  constructor
  · rw [Chain, ← pairwise_map, hslots, pairwise_append]
    refine ⟨pairwise_map.mpr (List.Pairwise.sublist (hsub.trans hv.kept_sublist) hc), by simp, ?_⟩
    intro s hs s' hs'
    rw [mem_singleton] at hs'
    rw [hs']
    exact hanc s hs
  · intro v hv' hlt
    have hs := mem_map_of_mem (f := fun v : Lockout => v.slot) hv'
    rw [hslots] at hs
    rcases mem_append.mp hs with hs | hs
    · exact hanc _ hs
    · rw [mem_singleton] at hs
      omega

/-- A vote that was on the stack and conflicts with the new slot has expired. -/
theorem TowerStep.expired {T : Forest Nat} {t t' : Tower} {slot : Nat} (h : TowerStep T t slot t')
    (hc : Chain T t.lockouts.votes) {v : Lockout} (hv : v ∈ t.lockouts.votes)
    (hconflict : ¬ T.IsAncestor v.slot slot) : v.expirationSlot < slot := by
  obtain ⟨kept, expired, hvoted, hkept⟩ := h.voted hc.slots
  rw [hvoted.split] at hv
  rcases mem_append.mp hv with hk | hexp
  · exact absurd (hkept v hk) hconflict
  · exact hvoted.isExpired v hexp

theorem TowerRun.chain {t₀ : Tower} {slots : List Nat} (h : TowerRun T t₀ slots t)
    (hc : Chain T t₀.lockouts.votes) : Chain T t.lockouts.votes := by
  induction h with
  | nil => exact hc
  | step _ hs ih => exact (hs.chain ih).1

/-- **Lockout safety of the tower.**  On every run from a tower whose votes lie on one fork, at each
step: the stack lies on one fork before and after, every vote below the recorded slot is an ancestor
of it, and every vote that was on the stack and is not an ancestor of the slot had a lockout that
ended before the slot. -/
theorem tower_lockout_safety {T : Forest Nat} {t₀ t t' : Tower} {slots : List Nat} {slot : Nat}
    (h₀ : Chain T t₀.lockouts.votes) (hrun : TowerRun T t₀ slots t)
    (hstep : TowerStep T t slot t') : (Chain T t.lockouts.votes ∧ Chain T t'.lockouts.votes) ∧
    (∀ v ∈ t'.lockouts.votes, v.slot < slot → T.IsAncestor v.slot slot) ∧
    (∀ v ∈ t.lockouts.votes, ¬ T.IsAncestor v.slot slot → v.expirationSlot < slot) := by
  have hc := hrun.chain h₀
  obtain ⟨hc', hanc⟩ := hstep.chain hc
  exact ⟨⟨hc, hc'⟩, hanc, fun v hv hconflict => hstep.expired hc hv hconflict⟩

/-- The tree with the two forks 0 ← 1 and 0 ← 5. -/
def twoForks : Forest Nat where
  parent n := if n = 1 ∨ n = 5 then some 0 else none
  parent_lt {a p} h := by
    split at h
    · cases h
      omega
    · cases h

def twoForksAncestors : AncestorMap := (ExtTreeMap.empty.insert 1 {0}).insert 5 {0}

theorem twoForksAncestors_in : AncestorsIn twoForks twoForksAncestors := by
  intro s A hs a ha
  simp only [twoForksAncestors, ExtTreeMap.getElem?_insert] at hs
  have hparent : A = {0} ∧ twoForks.parent s = some 0 := by
    split at hs
    · rename_i h
      cases hs
      have : s = 5 := (Std.LawfulEqOrd.eq_of_compare h).symm
      exact ⟨rfl, by rw [this]; rfl⟩
    · split at hs
      · rename_i h
        cases hs
        have : s = 1 := (Std.LawfulEqOrd.eq_of_compare h).symm
        exact ⟨rfl, by rw [this]; rfl⟩
      · simp at hs
  rw [hparent.1, Finset.mem_singleton] at ha
  rw [ha]
  exact Forest.IsAncestor.of_parent hparent.2

/-- The tower after a vote for slot 5, which expires the vote for slot 1. -/
def votedFive : Tower := ⟨{ Tower.default.lockouts with votes := [⟨5, 1⟩] }, Vote.new [5] 0⟩

theorem tower_lockout_safety_twoForks :
    Lockout.expirationSlot ⟨1, 1⟩ < 5 ∧ Chain twoForks votedFive.lockouts.votes := by
  have hrun : TowerRun twoForks Tower.default [1] votedOne :=
    @TowerRun.step _ _ [] _ _ _ .nil ⟨_, 0, none, _, 0, none, twoForksAncestors_in, rfl,
      rfl, by decide, rfl⟩
  have hstep : TowerStep twoForks votedOne 5 votedFive :=
    ⟨_, 0, none, _, 0, none, twoForksAncestors_in, rfl, rfl, by decide, rfl⟩
  have h₀ : Chain twoForks Tower.default.lockouts.votes := List.Pairwise.nil
  obtain ⟨⟨-, hc⟩, -, hexp⟩ := tower_lockout_safety h₀ hrun hstep
  refine ⟨hexp ⟨1, 1⟩ (by decide) fun h => ?_, hc⟩
  obtain ⟨p, hp, hor⟩ := h.cases
  cases hp
  rcases hor with h | h
  · cases h
  · exact absurd h.lt (by decide)

end Panoptes.Consensus
