import Panoptes.Vote.Stack

/-!
# Which votes the slot hashes accept

`check_slots_are_valid` walks the slots of a vote forward and the slot hashes backward.  It accepts
a vote only if its slots that are newer than the last vote all occur in the slot hashes, in order,
and if the last of them has the hash of the vote; a vote with increasing slots it accepts exactly
then.

* `newSlots`, `Accepted` — what is checked, without indices.
* `checkSlotsLoop_sublist`, `checkSlotsLoop_complete` — the loop, from any pair of indices.
* `processVoteUnchecked_eq` — a vote whose slots are all old but the last one is `process_slot` of
  that one.
* `foldl_processSlot_last` — the last vote after any slots is the newest of all.

Principal result: `checkSlotsAreValid_exact`.
-/

set_option autoImplicit false

namespace Panoptes.VoteProgram

open Lib Sdk List VoteState

section

variable (vs : VoteState) (vote : Vote) (slotHashes : List SlotHash)

def newSlots (last : Option Nat) (slots : List Nat) : List Nat :=
  slots.filter fun slot => !last.any fun l => decide (slot ≤ l)

/-- The new slots of the vote occur in the slot hashes, oldest first, and the hash of the last one
is that of the vote. -/
def VoteState.Accepted : Prop :=
  (newSlots vs.lastVotedSlot vote.slots).Sublist (slotHashes.reverse.map Prod.fst) ∧
    ∃ slot, (newSlots vs.lastVotedSlot vote.slots).getLast? = some slot ∧
      (slot, vote.hash) ∈ slotHashes

/-- `process_vote` on `&mut self`: its result, and the state it leaves. -/
def VoteState.processVoteInPlace (epoch : Nat) :
    Res VoteError Unit × VoteState :=
  if vote.slots.isEmpty then (.error (.error .emptySlots), vs)
  else
    match vs.checkSlotsAreValid vote slotHashes with
    | .error e => (.error e, vs)
    | .ok () => (.ok (), vote.slots.foldl (fun vs slot => vs.processSlot slot epoch) vs)

theorem VoteState.processVote_eq_inPlace (epoch : Nat) :
    vs.processVote vote slotHashes epoch =
      (vs.processVoteInPlace vote slotHashes epoch).1.map fun _ =>
      (vs.processVoteInPlace vote slotHashes epoch).2 := by
  unfold VoteState.processVote processVoteInPlace
  split
  · rfl
  · cases vs.checkSlotsAreValid vote slotHashes <;> rfl

end

/-! ## The loop -/

section Loop

variable {last : Option Nat} {slots : List Nat} {slotHashes : List SlotHash}

theorem newSlots_drop {i : Nat} (hi : i < slots.length) :
    newSlots last (slots.drop i) =
      if last.any (fun l => decide (slots[i] ≤ l)) then newSlots last (slots.drop (i + 1))
      else slots[i] :: newSlots last (slots.drop (i + 1)) := by
  rw [drop_eq_getElem_cons hi, newSlots, filter_cons]
  cases last.any fun l => decide (slots[i] ≤ l) <;> rfl

theorem reverse_take {j : Nat} (hj : 0 < j) (hlt : j - 1 < slotHashes.length) :
    (slotHashes.take j).reverse = slotHashes[j - 1] :: (slotHashes.take (j - 1)).reverse := by
  have htake := take_succ_eq_append_getElem hlt
  rw [Nat.sub_add_cancel hj] at htake
  rw [htake, reverse_append]
  rfl

/-- If the loop comes to the end of the vote, the new slots left were found among the slot hashes
left, and the index into the slot hashes stands at the last one found. -/
theorem checkSlotsLoop_sublist :
    ∀ fuel i j j', j ≤ slotHashes.length → checkSlotsLoop last slots slotHashes fuel i j =
      .ok (slots.length, j') →
      (newSlots last (slots.drop i)).Sublist ((slotHashes.take j).reverse.map Prod.fst) ∧
      ((newSlots last (slots.drop i) = [] ∧ j' = j) ∨
        ∃ h : j' < slotHashes.length, j' < j ∧ (newSlots last (slots.drop i)).getLast? =
          some slotHashes[j'].1)
  | 0, _, _, _, _, h => by cases h
  | fuel + 1, i, j, j', hj, h => by
    unfold checkSlotsLoop at h
    by_cases hc : i < slots.length ∧ j > 0
    · have hj' : j - 1 < slotHashes.length := by omega
      rw [if_pos hc, index_eq_ok hc.1, index_eq_ok hj', ok_bind, ok_bind] at h
      rw [newSlots_drop hc.1]
      split at h
      · rename_i hold
        rw [if_pos hold]
        exact checkSlotsLoop_sublist fuel (i + 1) j j' hj h
      · rename_i hnew
        rw [if_neg hnew, reverse_take hc.2 hj', map_cons]
        split at h
        · obtain ⟨hsub, hlast⟩ := checkSlotsLoop_sublist fuel i (j - 1) j' (by omega) h
          rw [newSlots_drop hc.1, if_neg hnew] at hsub hlast
          refine ⟨hsub.cons _, .inr ?_⟩
          rcases hlast with ⟨hnil, -⟩ | ⟨hlt, hlt', hlast⟩
          · cases hnil
          · exact ⟨hlt, by omega, hlast⟩
        · rename_i heq
          rw [not_not] at heq
          obtain ⟨hsub, hlast⟩ := checkSlotsLoop_sublist fuel (i + 1) (j - 1) j' (by omega) h
          rw [heq]
          refine ⟨hsub.cons_cons _, .inr ?_⟩
          rcases hlast with ⟨hnil, rfl⟩ | ⟨hlt, hlt', hlast⟩
          · exact ⟨hj', by omega, by rw [hnil]; rfl⟩
          · exact ⟨hlt, by omega, by rw [getLast?_cons, hlast]; rfl⟩
    · rw [if_neg hc] at h
      cases h
      rw [drop_length]
      exact ⟨nil_sublist _, .inl ⟨rfl, rfl⟩⟩

/-- Everything behind a new slot is new. -/
def OldFirst (last : Option Nat) (slots : List Nat) : Prop :=
  ∀ i (h : i < slots.length), ¬ last.any (fun l => decide (slots[i] ≤ l)) = true →
    newSlots last (slots.drop (i + 1)) = slots.drop (i + 1)

theorem oldFirst_of_sorted (hsorted : slots.Pairwise (· < ·)) : OldFirst last slots := by
  intro i hi hnew
  refine filter_eq_self.mpr fun s hs => ?_
  have hlt : slots[i] < s := by
    have hpair := hsorted.drop (i := i)
    rw [drop_eq_getElem_cons hi, pairwise_cons] at hpair
    exact hpair.1 s hs
  cases last with
  | none => rfl
  | some l =>
    simp only [Option.any_some, decide_eq_true_eq] at hnew
    simp
    omega

/-- The loop takes each new slot at its first occurrence, so it finds them all if they are there. -/
theorem checkSlotsLoop_complete (hold : OldFirst last slots) :
    ∀ fuel i j, i ≤ slots.length → j ≤ slotHashes.length → slots.length - i + j < fuel →
      (newSlots last (slots.drop i)).Sublist ((slotHashes.take j).reverse.map Prod.fst) →
      (newSlots last (slots.drop i) = [] → i = slots.length) →
      ∃ j', checkSlotsLoop last slots slotHashes fuel i j = .ok (slots.length, j')
  | 0, _, _, _, _, h, _, _ => by omega
  | fuel + 1, i, j, hi, hj, hfuel, hsub, hend => by
    unfold checkSlotsLoop
    by_cases hc : i < slots.length ∧ j > 0
    · have hj' : j - 1 < slotHashes.length := by omega
      rw [if_pos hc, index_eq_ok hc.1, index_eq_ok hj', ok_bind, ok_bind]
      rw [newSlots_drop hc.1] at hsub hend
      split
      · rename_i hskip
        rw [if_pos hskip] at hsub hend
        refine checkSlotsLoop_complete hold fuel (i + 1) j (by omega) hj (by omega) hsub
          fun hnil => ?_
        have := hend hnil
        omega
      · rename_i hnew
        rw [if_neg hnew] at hsub hend
        rw [reverse_take hc.2 hj', map_cons] at hsub
        split
        · rename_i hne
          refine checkSlotsLoop_complete hold fuel i (j - 1) (by omega) (by omega)
            (by omega) ?_ ?_ <;>
            rw [newSlots_drop hc.1, if_neg hnew]
          · refine (sublist_cons_iff.mp hsub).resolve_right ?_
            rintro ⟨_, heq, _⟩
            exact hne (List.cons.inj heq).1
          · exact hend
        · rename_i heq
          rw [not_not] at heq
          rw [heq] at hsub
          refine checkSlotsLoop_complete hold fuel (i + 1) (j - 1) (by omega) (by omega) (by omega)
            (cons_sublist_cons.mp hsub) fun hnil => ?_
          rw [hold i hc.1 hnew, drop_eq_nil_iff] at hnil
          omega
    · rw [if_neg hc]
      have hnil : newSlots last (slots.drop i) = [] := by
        by_cases hlen : i < slots.length
        · obtain rfl : j = 0 := by omega
          exact sublist_nil.mp hsub
        · rw [drop_eq_nil_of_le (by omega)]
          rfl
      exact ⟨j, by rw [hend hnil]⟩

end Loop

/-! ## The check -/

variable {vs : VoteState} {vote : Vote} {slotHashes : List SlotHash}

theorem accepted_of_checkSlotsAreValid (h : vs.checkSlotsAreValid vote slotHashes = .ok ()) :
    vs.Accepted vote slotHashes := by
  obtain ⟨⟨i, j⟩, hloop, h⟩ := bind_eq_ok.mp h
  replace hloop := liftPanic_eq_ok hloop
  split at h
  · cases h
  rename_i hj
  split at h
  · cases h
  rename_i hi
  rw [not_not] at hi
  subst hi
  obtain ⟨hsub, ⟨-, hj'⟩ | ⟨hlt, -, hlast⟩⟩ := checkSlotsLoop_sublist _ 0 _ j le_rfl hloop
  · exact absurd hj' hj
  · rw [take_length] at hsub
    rw [index_eq_ok hlt, liftPanic_ok, ok_bind] at h
    split at h
    · cases h
    rename_i hhash
    rw [not_not] at hhash
    refine ⟨hsub, _, hlast, ?_⟩
    rw [← hhash]
    exact getElem_mem hlt

theorem checkSlotsAreValid_of_sublist {slot : Nat} (hold : OldFirst vs.lastVotedSlot vote.slots)
    (hsub : (newSlots vs.lastVotedSlot vote.slots).Sublist (slotHashes.reverse.map Prod.fst))
    (hlast : (newSlots vs.lastVotedSlot vote.slots).getLast? = some slot)
    (hhash : ∀ h ∈ slotHashes, h.1 = slot → h.2 = vote.hash) : vs.checkSlotsAreValid vote
      slotHashes = .ok () := by
  have hne : newSlots vs.lastVotedSlot vote.slots ≠ [] :=
    fun hnil => by rw [hnil] at hlast; cases hlast
  obtain ⟨j, hloop⟩ : ∃ j, checkSlotsLoop vs.lastVotedSlot vote.slots slotHashes
      (vote.slots.length + slotHashes.length + 1) 0 slotHashes.length =
        .ok (vote.slots.length, j) := by
    refine checkSlotsLoop_complete hold _ 0 _ (Nat.zero_le _) le_rfl (by omega) ?_
      fun hnil => absurd hnil hne
    rwa [drop_zero, take_length]
  obtain ⟨-, ⟨hnil, -⟩ | ⟨hlt, hj, hlast'⟩⟩ := checkSlotsLoop_sublist _ 0 _ j le_rfl hloop
  · exact absurd hnil hne
  rw [drop_zero, hlast] at hlast'
  unfold checkSlotsAreValid
  rw [hloop, liftPanic_ok, ok_bind]
  rw [if_neg (by omega), if_neg (not_not.mpr rfl), index_eq_ok hlt, liftPanic_ok, ok_bind,
    if_neg (not_not.mpr (hhash _ (getElem_mem hlt) (Option.some.inj hlast').symm))]

/-- A vote for a slot that is not newer than the last one is ignored. -/
theorem processSlot_old {vs : VoteState} {slot last : Nat} (epoch : Nat)
    (hl : vs.lastVotedSlot = some last) (hle : slot ≤ last) : vs.processSlot slot epoch = vs := by
  unfold processSlot
  rw [if_pos (by simp [hl, hle])]

theorem foldl_processSlot_old {vs : VoteState} {epoch : Nat} :
    ∀ {old : List Nat}, (∀ s ∈ old, ∃ last, vs.lastVotedSlot = some last ∧ s ≤ last) →
      old.foldl (fun vs slot => vs.processSlot slot epoch) vs = vs
  | [], _ => rfl
  | s :: old, h => by
    obtain ⟨last, hl, hle⟩ := h s mem_cons_self
    rw [foldl_cons, processSlot_old epoch hl hle]
    exact foldl_processSlot_old fun s hs => h s (mem_cons_of_mem _ hs)

/-- **A vote on one new slot.**  When all slots of a vote but the last are old, processing it
without slot hashes of the bank is `process_slot` of the last one. -/
theorem processVoteUnchecked_eq {vs : VoteState} {old : List Nat} {slot : Nat} {hash : Hash}
    (hold : ∀ s ∈ old, ∃ last, vs.lastVotedSlot = some last ∧ s ≤ last)
    (hnew : ∀ last, vs.lastVotedSlot = some last → last < slot) :
    vs.processVoteUnchecked (Vote.new (old ++ [slot]) hash) =
      .ok (vs.processSlot slot vs.currentEpoch) := by
  have hnew' : vs.lastVotedSlot.any (fun l => decide (slot ≤ l)) = false := by
    cases h : vs.lastVotedSlot with
    | none => rfl
    | some l => simpa using hnew l h
  have hold' : ∀ s ∈ old, vs.lastVotedSlot.any (fun l => decide (s ≤ l)) = true := by
    intro s hs
    obtain ⟨l, hl, hle⟩ := hold s hs
    simp [hl, hle]
  have hslots : newSlots vs.lastVotedSlot (old ++ [slot]) = [slot] := by
    rw [newSlots, filter_append, filter_eq_nil_iff.mpr fun s hs => by simp [hold' s hs]]
    simp [hnew']
  have hcheck : vs.checkSlotsAreValid (Vote.new (old ++ [slot]) hash)
      ((old ++ [slot]).reverse.map fun s => (s, hash)) = .ok () := by
    refine @checkSlotsAreValid_of_sublist vs _ _ slot (fun i hi hfresh => ?_) ?_ ?_ ?_
    · by_cases hlt : i < old.length
      · rw [show (Vote.new (old ++ [slot]) hash).slots[i] =
          old[i] from getElem_append_left hlt] at hfresh
        exact absurd (hold' _ (getElem_mem hlt)) hfresh
      · rw [drop_eq_nil_of_le (by simp [Vote.new]; omega)]
        rfl
    · rw [show (Vote.new (old ++ [slot]) hash).slots = old ++ [slot] from rfl, hslots]
      simp
    · rw [show (Vote.new (old ++ [slot]) hash).slots = old ++ [slot] from rfl, hslots]
      rfl
    · intro h hh _
      obtain ⟨s, -, rfl⟩ := mem_map.mp hh
      rfl
  unfold processVoteUnchecked
  rw [processVote_eq_inPlace, processVoteInPlace, if_neg (by simp [Vote.new]),
    show (Vote.new (old ++ [slot]) hash).slots = old ++ [slot] from rfl,
    show (Vote.new (old ++ [slot]) hash).hash = hash from rfl, hcheck]
  simp only [Except.map, foldl_append, foldl_cons, foldl_nil, foldl_processSlot_old hold]

/-! ## The last vote -/

theorem processSlot_lastVotedSlot (vs : VoteState) (slot epoch : Nat) :
    (vs.processSlot slot epoch).lastVotedSlot = some (vs.lastVotedSlot.elim slot (max slot)) := by
  rcases processSlot_cases vs slot epoch with ⟨⟨last, hlast, hle⟩, heq⟩ | ⟨kept, expired, hv⟩
  · rw [heq, hlast, Option.elim_some, max_eq_right hle]
  · rw [hv.lastVotedSlot]
    cases hlast : vs.lastVotedSlot with
    | none => rfl
    | some last => rw [Option.elim_some, max_eq_left (hv.newer last hlast).le]

theorem foldl_processSlot_last (epoch : Nat) :
    ∀ (slots : List Nat) (vs : VoteState),
      (slots.foldl (fun vs slot => vs.processSlot slot epoch) vs).lastVotedSlot =
        (vs.lastVotedSlot.toList ++ slots).max?
  | [], vs => by cases h : vs.lastVotedSlot <;> simp [h]
  | slot :: slots, vs => by
    rw [foldl_cons, foldl_processSlot_last epoch slots, processSlot_lastVotedSlot]
    cases vs.lastVotedSlot with
    | none => rfl
    | some last =>
      simp only [Option.elim_some, Option.toList_some, cons_append, nil_append, max?_cons,
        Nat.max_comm slot last]
      cases slots.max? with
      | none => rfl
      | some m => exact congrArg some (Nat.max_assoc last slot m)

/-- **Votes are accepted exactly by the slot hashes.** -/
theorem checkSlotsAreValid_exact (vs : VoteState) (vote : Vote)
    (slotHashes : List SlotHash) (epoch : Nat)
    (hdesc : (slotHashes.map Prod.fst).Pairwise (· > ·)) :
    (vs.checkSlotsAreValid vote slotHashes = .ok () →
      newSlots vs.lastVotedSlot vote.slots ≠ [] ∧
        (newSlots vs.lastVotedSlot vote.slots).Pairwise (· < ·) ∧ vs.Accepted vote slotHashes) ∧
    (vote.slots.Pairwise (· < ·) → vs.Accepted vote slotHashes →
      vs.checkSlotsAreValid vote slotHashes = .ok ()) ∧
    ((vs.processVoteInPlace vote slotHashes epoch).1 = .ok () →
      (vs.processVoteInPlace vote slotHashes epoch).2.lastVotedSlot = vote.slots.max?) ∧
    ∀ e, (vs.processVoteInPlace vote slotHashes epoch).1 = .error e →
      (vs.processVoteInPlace vote slotHashes epoch).2 = vs := by
  refine ⟨fun h => ?_, fun hsorted h => ?_, ?_, ?_⟩
  · have haccepted := accepted_of_checkSlotsAreValid h
    obtain ⟨hsub, slot, hlast, -⟩ := id haccepted
    refine ⟨?_, List.Pairwise.sublist hsub ?_, haccepted⟩
    · intro hnil
      rw [hnil] at hlast
      cases hlast
    · rw [map_reverse]
      exact pairwise_reverse.mpr hdesc
  · obtain ⟨hsub, slot, hlast, hmem⟩ := h
    refine checkSlotsAreValid_of_sublist (oldFirst_of_sorted hsorted) hsub hlast
      fun entry hentry heq => ?_
    -- the slot hashes have one entry for the last new slot
    have hnodup : (slotHashes.map Prod.fst).Nodup := hdesc.imp fun hlt => (ne_of_lt hlt).symm
    rw [inj_on_of_nodup_map hnodup hentry hmem heq]
  · unfold processVoteInPlace
    split
    · exact fun h => nomatch h
    split
    · exact fun h => nomatch h
    rename_i hcheck
    intro
    rw [foldl_processSlot_last]
    -- some slot of the vote is newer than the last vote
    obtain ⟨-, slot, hlast, -⟩ := accepted_of_checkSlotsAreValid hcheck
    obtain ⟨hmem, hnew⟩ := mem_filter.mp (mem_of_getLast? hlast)
    cases hvs : vs.lastVotedSlot with
    | none => rfl
    | some last =>
      rw [hvs] at hnew
      obtain ⟨m, hm⟩ : ∃ m, vote.slots.max? = some m := by
        cases hmax : vote.slots.max? with
        | none => rw [max?_eq_none_iff.mp hmax] at hmem; cases hmem
        | some m => exact ⟨m, rfl⟩
      have hle : slot ≤ m := (max?_eq_some_iff.mp hm).2 slot hmem
      simp only [Option.any_some, Bool.not_eq_true', decide_eq_false_iff_not] at hnew
      simp only [Option.toList_some, cons_append, nil_append, max?_cons, hm, Option.elim_some]
      exact congrArg some (by omega)
  · intro e
    unfold processVoteInPlace
    split
    · exact fun _ => rfl
    split
    · exact fun _ => rfl
    · exact fun h => nomatch h

theorem checkSlotsAreValid_exact_twoSlots :
    (([(2, 7), (1, 5)] : List SlotHash).map Prod.fst).Pairwise (· > ·) ∧
      default.checkSlotsAreValid (Vote.new [1, 2] 7) [(2, 7), (1, 5)] = .ok () :=
  ⟨by decide,
    (checkSlotsAreValid_exact .default (Vote.new [1, 2] 7) [(2, 7), (1, 5)] 0 (by decide)).2.1
      (by decide)
    ⟨by decide, 2, by decide, by decide⟩⟩

end Panoptes.VoteProgram
