import Panoptes.ForkChoice.Run

/-!
# Batches and single votes

Whether a batch of votes can be replaced by its votes one at a time, in any order.

* `castVotes_perm` — the latest votes after a list of votes do not depend on its order.
* `leaving` — the stake that leaves a slot for good, which is at most what departs in any order.
* `addVotesSingly_returns` — single votes never subtract stake that is not there, if what leaves a
  slot for good is voted there.

Principal result: a batch commutes with single votes exactly when at each slot the stake that
departs during the batch is voted there before it.  A validator that votes twice in a batch, for a
slot without stake and then for a later one, breaks this: updates are merged by slot, and the
subtraction at the first slot comes before the addition.
-/

set_option autoImplicit false

namespace Panoptes.ForkChoice

open Lib Sdk
open Std (ExtTreeMap)
open HeaviestSubtreeForkChoice

variable {es : EpochStakes} {latest final : ExtTreeMap Pubkey Nat} {vote : Pubkey × Nat}
  {votes order : List (Pubkey × Nat)} {table : StakeTable} {fc fc' : HeaviestSubtreeForkChoice}
  {s : Nat}

/-! ## The order of votes -/

theorem castVote_getElem? (latest : ExtTreeMap Pubkey Nat) (vote : Pubkey × Nat) (pubkey : Pubkey) :
    (castVote latest vote)[pubkey]? =
      if pubkey = vote.1 ∧ latest[pubkey]?.getD 0 < vote.2 then some vote.2
        else latest[pubkey]? := by
  unfold castVote
  by_cases hpubkey : pubkey = vote.1
  · subst hpubkey
    by_cases hnew : vote.2 ≤ latest[vote.1]?.getD 0
    · rw [if_pos hnew, if_neg fun h => absurd h.2 (by omega)]
    · rw [if_neg hnew, if_pos ⟨rfl, by omega⟩, getElem?_insert_ite, if_pos rfl]
  · have hnot : ¬ (pubkey = vote.1 ∧ latest[pubkey]?.getD 0 < vote.2) := fun h => hpubkey h.1
    split
    · rfl
    · rw [getElem?_insert_ite, if_neg hpubkey]

/-- Two votes can be counted in either order: the later slot of a validator stays. -/
theorem castVote_comm (latest : ExtTreeMap Pubkey Nat) (a b : Pubkey × Nat) :
    castVote (castVote latest a) b = castVote (castVote latest b) a := by
  apply ExtTreeMap.ext_getElem?
  intro pubkey
  simp only [castVote_getElem?]
  by_cases ha : pubkey = a.1
  · by_cases hb : pubkey = b.1
    · by_cases hla : latest[pubkey]?.getD 0 < a.2
      · by_cases hlb : latest[pubkey]?.getD 0 < b.2
        · simp only [← ha, ← hb, hla, hlb, if_true, true_and, Option.getD_some]
          rcases lt_trichotomy a.2 b.2 with h | h | h
          · rw [if_pos h, if_neg (by omega)]
          · rw [if_neg (by omega), if_neg (by omega), h]
          · rw [if_neg (by omega), if_pos h]
        · have hba : ¬ a.2 < b.2 := by omega
          simp [← ha, hla, hlb, hba]
      · by_cases hlb : latest[pubkey]?.getD 0 < b.2
        · have hab : ¬ b.2 < a.2 := by omega
          simp [← hb, hla, hlb, hab]
        · simp [hla, hlb]
    · simp [hb]
  · simp [ha]

/-- **The latest votes do not depend on the order of a batch.** -/
theorem castVotes_perm (h : order.Perm votes) (latest : ExtTreeMap Pubkey Nat) :
    castVotes latest order = castVotes latest votes := by
  have : RightCommutative castVote := ⟨fun latest a b => castVote_comm latest a b⟩
  exact h.foldl_eq latest

theorem castVotes_mono (votes : List (Pubkey × Nat)) (latest : ExtTreeMap Pubkey Nat)
    (pubkey : Pubkey) : latest[pubkey]?.getD 0 ≤ (castVotes latest votes)[pubkey]?.getD 0 := by
  induction votes generalizing latest with
  | nil => exact le_refl _
  | cons vote votes ih => exact (castVote_mono latest vote pubkey).trans (ih (castVote latest vote))

/-! ## Stake that leaves for good -/

/-- The stake of the validators whose latest vote is `s` and whose vote is a later slot in the
end. -/
def leaving (es : EpochStakes) (latest final : ExtTreeMap Pubkey Nat) (s : Nat) : Nat :=
  mapSum latest fun pubkey slot =>
    if slot = s ∧ s < final[pubkey]?.getD 0 then es.stake pubkey slot else 0

/-- A vote takes its stake away for good, and may bring it to a slot that it leaves again. -/
theorem leaving_castVote (hfinal : (castVote latest vote)[vote.1]?.getD 0 ≤ final[vote.1]?.getD 0)
    (s : Nat) : leaving es (castVote latest vote) final s + departs es latest vote s ≤
      leaving es latest final s + arrives es latest vote s ∧
      leaving es latest final s ≤
        leaving es (castVote latest vote) final s + departs es latest vote s ∧
      departs es latest vote s ≤ leaving es latest final s := by
  unfold departs arrives
  by_cases hnew : vote.2 ≤ latest[vote.1]?.getD 0
  · have hsame : castVote latest vote = latest := if_pos hnew
    rw [hsame, if_pos hnew]
    omega
  · rw [castVote_of_newer hnew, getElem?_insert_ite, if_pos rfl, Option.getD_some] at hfinal
    rw [if_neg hnew, if_neg hnew, castVote_of_newer hnew]
    have hinsert := mapSum_insert latest (fun pubkey slot =>
      if slot = s ∧ s < final[pubkey]?.getD 0 then es.stake pubkey slot else 0) vote.1 vote.2
    have hold : (latest[vote.1]?).elim 0 (fun slot =>
        if slot = s ∧ s < final[vote.1]?.getD 0 then es.stake vote.1 slot else 0) =
        if latest[vote.1]? = some s then es.stake vote.1 s else 0 := by
      cases hget : latest[vote.1]? with
      | none => rfl
      | some slot =>
        rw [hget, Option.getD_some] at hnew
        by_cases hs : slot = s
        · subst hs
          rw [Option.elim_some, if_pos ⟨rfl, by omega⟩, if_pos rfl]
        · rw [Option.elim_some, if_neg fun h => hs h.1, if_neg fun h => hs (Option.some.inj h)]
    have hcome : (if vote.2 = s ∧ s < final[vote.1]?.getD 0 then es.stake vote.1 vote.2 else 0) ≤
        if vote.2 = s then es.stake vote.1 s else 0 := by
      by_cases hs : vote.2 = s
      · rw [if_pos hs, hs]
        split
        · exact le_refl _
        · exact Nat.zero_le _
      · rw [if_neg hs, if_neg fun h => hs h.1]
    have hpart := sum_le_mapSum (m := latest) (fun pubkey slot =>
      if slot = s ∧ s < final[pubkey]?.getD 0 then es.stake pubkey slot else 0) {vote.1}
    rw [Finset.sum_singleton] at hpart
    unfold leaving
    omega

/-- What leaves a slot for good departs from it, in whatever order the votes are counted. -/
theorem leaving_le_departing (es : EpochStakes) (votes : List (Pubkey × Nat))
    (latest : ExtTreeMap Pubkey Nat) (s : Nat) :
    leaving es latest (castVotes latest votes) s ≤ departing es latest votes s := by
  induction votes generalizing latest with
  | nil =>
    unfold leaving mapSum
    rw [Finset.sum_eq_zero]
    · exact Nat.zero_le _
    · intro pubkey _
      cases hget : latest[pubkey]? with
      | none => rfl
      | some slot =>
        refine if_neg fun h => ?_
        have hfinal : (castVotes latest [])[pubkey]?.getD 0 = slot := by
          show latest[pubkey]?.getD 0 = slot
          rw [hget, Option.getD_some]
        omega
  | cons vote votes ih =>
    have hstep := (@leaving_castVote es latest _ vote
      (castVotes_mono votes (castVote latest vote) vote.1) s).2.1
    have hrest := ih (castVote latest vote)
    have hcons : castVotes latest (vote :: votes) = castVotes (castVote latest vote) votes := rfl
    rw [hcons]
    simp only [departing]
    omega

/-! ## One vote at a time -/

/-- `add_votes` with each vote of a list, one at a time. -/
def addVotesSingly (o : Overflow) (es : EpochStakes) (fc : HeaviestSubtreeForkChoice)
    (votes : List (Pubkey × Nat)) : Except Panic HeaviestSubtreeForkChoice :=
  votes.foldlM (fun fc vote => do
    let voted ← fc.addVotes o [vote] es
    .ok voted.1) fc

/-- **Single votes** in any order: if at each slot the stake that leaves for good is voted there, no
vote underflows, since stake that arrives on the way covers its own departure. -/
theorem addVotesSingly_returns (o : Overflow) (order : List (Pubkey × Nat)) (h : Sound table fc)
    (hleaving : ∀ s ∈ fc.slots,
      leaving table.toEpochStakes fc.latestVotes (castVotes fc.latestVotes order) s ≤
        fc.votedAt s) :
    ∃ fc', addVotesSingly o table.toEpochStakes fc order = .ok fc' ∧ SameLinks fc fc' ∧
      fc'.latestVotes = castVotes fc.latestVotes order ∧ Sound table fc' ∧
      ∀ s ∈ fc.slots, fc'.votedAt s + votesAt table.toEpochStakes fc.latestVotes s =
        fc.votedAt s + votesAt table.toEpochStakes fc'.latestVotes s := by
  induction order generalizing fc with
  | nil => exact ⟨fc, rfl, SameLinks.refl fc, rfl, h, fun _ _ => rfl⟩
  | cons vote order ih =>
    have hstep := fun s => @leaving_castVote table.toEpochStakes fc.latestVotes
      (castVotes fc.latestVotes (vote :: order)) vote
      (castVotes_mono order (castVote fc.latestVotes vote) vote.1) s
    obtain ⟨fc₁, hrun, hsame, hlatest, hsound, hmove⟩ := h.addVotes o [vote] fun s hs => by
      have hdeparts := (hstep s).2.2
      have hle := hleaving s hs
      simp only [departing]
      omega
    have hlatest' : fc₁.latestVotes = castVote fc.latestVotes vote := hlatest
    have hleaving₁ : ∀ s ∈ fc₁.slots, leaving table.toEpochStakes fc₁.latestVotes
        (castVotes fc₁.latestVotes order) s ≤ fc₁.votedAt s := by
      intro s hs
      rw [hsame.slots] at hs
      have hdelta := castVote_votesAt table.toEpochStakes fc.latestVotes vote s
      have hmoves := hmove s hs
      have hle := hleaving s hs
      have hgrow := (hstep s).1
      have hdeparts := (hstep s).2.2
      have hcons : castVotes fc.latestVotes (vote :: order) =
        castVotes (castVote fc.latestVotes vote) order := rfl
      rw [hcons] at hle hgrow hdeparts
      rw [hlatest'] at hmoves ⊢
      omega
    obtain ⟨fc', hrest, hsame', hlatest₂, hsound', hmove'⟩ := ih hsound hleaving₁
    refine ⟨fc', ?_, hsame.trans hsame', ?_, hsound', fun s hs => ?_⟩
    · unfold addVotesSingly
      rw [List.foldlM_cons, hrun]
      exact hrest
    · rw [hlatest₂, hlatest']
      rfl
    · have hmoves := hmove s hs
      have hmoves' := hmove' s (hsame.slots ▸ hs)
      omega

/-- Two sound states with the same tree, latest votes and stakes voted at the slots are equal. -/
theorem Sound.eq_of_votedAt (h : Sound table fc) (h' : Sound table fc') (hsame : SameLinks fc fc')
    (hlatest : fc'.latestVotes = fc.latestVotes)
    (hat : ∀ s ∈ fc.slots, fc'.votedAt s = fc.votedAt s) : fc' = fc := by
  have hat' : ∀ s, fc'.votedAt s = fc.votedAt s := by
    intro s
    by_cases hs : s ∈ fc.slots
    · exact hat s hs
    · rw [votedAt_of_not_mem hs, votedAt_of_not_mem (hsame.slots ▸ hs)]
  have hinfos : fc'.forkInfos = fc.forkInfos := forkInfos_ext hsame.slots
    (entry_unique h.isTree hsame hat' h.ruled h'.ruled)
  cases fc'
  simp only at hinfos hlatest
  have hroot := hsame.root
  simp only at hroot
  rw [hinfos, hlatest, hroot]

/-- Every state that linked calls reach in a build with overflow checks is sound. -/
theorem sound_of_reachable {root : Nat}
    (h : Reachable .checked table.toEpochStakes Call.Linked root fc) : Sound table fc := by
  refine h.invariant (sound_new table root) fun fc call fc' hsound hlinked hrun => ?_
  cases call with
  | addNewLeafSlot slot parent =>
    obtain ⟨fc₁, hrun₁, hsound₁, -⟩ := hsound.addNewLeafSlot hlinked
    rw [show fc.addNewLeafSlot slot (some parent) = .ok fc' from hrun] at hrun₁
    cases hrun₁
    exact hsound₁
  | addVotes votes =>
    obtain ⟨⟨fc₁, best⟩, hvoted, hfc'⟩ := bind_eq_ok.mp hrun
    cases hfc'
    obtain ⟨fc₂, hrun₂, -, -, hsound₂, -⟩ := hsound.addVotes .checked votes
      fun s hs => departing_le_of_addVotes hsound hvoted hs
    rw [hvoted] at hrun₂
    cases hrun₂
    exact hsound₂
  | setRoot newRoot =>
    obtain ⟨fc₁, hrun₁, hsound₁, -⟩ := hsound.setRoot hlinked
    rw [show fc.setRoot newRoot = .ok fc' from hrun] at hrun₁
    cases hrun₁
    exact hsound₁

/-- **A batch commutes with single votes exactly if at each slot the stake that departs during the
batch is voted there before it**: then `add_votes` of the batch returns, and the votes one at a
time, in any order, lead to the same state. -/
theorem addVotes_commutes_iff (table : StakeTable) (root : Nat) {fc : HeaviestSubtreeForkChoice}
    (h : Reachable .checked table.toEpochStakes Call.Linked root fc) (votes : List (Pubkey × Nat)) :
    (∃ fc' best, fc.addVotes .checked votes table.toEpochStakes = .ok (fc', best) ∧
      ∀ order : List (Pubkey × Nat), order.Perm votes →
        addVotesSingly .checked table.toEpochStakes fc order = .ok fc') ↔
    ∀ s stake, fc.stakeVotedAt s = some stake →
      departing table.toEpochStakes fc.latestVotes votes s ≤ stake := by
  have hsound := sound_of_reachable h
  constructor
  · rintro ⟨fc', best, hbatch, -⟩ s stake hstake
    by_cases hs : s ∈ fc.slots
    · rw [stakeVotedAt_of_mem hs] at hstake
      cases hstake
      exact departing_le_of_addVotes hsound hbatch hs
    · unfold HeaviestSubtreeForkChoice.stakeVotedAt at hstake
      rw [getElem?_of_not_mem hs] at hstake
      cases hstake
  · intro hdep
    have hdep' : ∀ s ∈ fc.slots, departing table.toEpochStakes fc.latestVotes votes s ≤
        fc.votedAt s :=
      fun s hs => hdep s _ (stakeVotedAt_of_mem hs)
    obtain ⟨fc', hbatch, hsame, hlatest, hsound', hmove⟩ := hsound.addVotes .checked votes hdep'
    refine ⟨fc', _, hbatch, fun order hperm => ?_⟩
    obtain ⟨fc'', hsingly, hsame', hlatest', hsound'', hmove'⟩ :=
      addVotesSingly_returns .checked order hsound fun s hs => by
        rw [castVotes_perm hperm]
        exact (leaving_le_departing _ votes fc.latestVotes s).trans (hdep' s hs)
    have hlatest'' : fc''.latestVotes = fc'.latestVotes := by
      rw [hlatest', hlatest, castVotes_perm hperm]
    have hlinks : SameLinks fc' fc'' :=
      ⟨hsame'.root.trans hsame.root.symm, hsame'.slots.trans hsame.slots.symm,
        fun s => (hsame'.parent s).trans (hsame.parent s).symm,
        fun s => (hsame'.children s).trans (hsame.children s).symm⟩
    have heq : fc'' = fc' := by
      refine hsound'.eq_of_votedAt hsound'' hlinks hlatest'' fun s hs => ?_
      rw [hsame.slots] at hs
      have hmoves := hmove s hs
      have hmoves' := hmove' s hs
      rw [hlatest''] at hmoves'
      omega
    rw [hsingly, heq]

/-- The root 0 with two forks. -/
def forkCalls : List Call := [.addNewLeafSlot 1 0, .addNewLeafSlot 2 0]

/-- Two validators. -/
def pairTable : StakeTable :=
  epochTable (((∅ : ExtTreeMap Pubkey Nat).insert 7 10).insert 8 5) (by decide +kernel)

/-- Both validators voted for one fork. -/
def forked : HeaviestSubtreeForkChoice :=
  (runCalls (Call.run .checked pairTable.toEpochStakes) Call.Linked (new 0)
    (forkCalls ++ [.addVotes [(7, 1), (8, 1)]])).getD (new 0)

theorem runCalls_forkCalls :
    runCalls (Call.run .checked pairTable.toEpochStakes) Call.Linked (new 0)
    (forkCalls ++ [.addVotes [(7, 1), (8, 1)]]) = some forked :=
  runCalls_eq_some (by decide +kernel)

/-- They move to the other fork, and one of them then casts an old vote. -/
theorem addVotes_commutes_iff_forked :
    ∃ fc' best, forked.addVotes .checked [(8, 2), (7, 2), (7, 1)] pairTable.toEpochStakes =
      .ok (fc', best) ∧ ∀ order : List (Pubkey × Nat), order.Perm [(8, 2), (7, 2), (7, 1)] →
        addVotesSingly .checked pairTable.toEpochStakes forked order = .ok fc' := by
  have hall : ∀ entry ∈ forked.forkInfos.toList,
      departing pairTable.toEpochStakes forked.latestVotes [(8, 2), (7, 2), (7, 1)] entry.1
        ≤ entry.2.stakeVotedAt := by decide +kernel
  refine (addVotes_commutes_iff pairTable 0 (Reachable.start.runCalls runCalls_forkCalls) _).mpr
    fun s stake hstake => ?_
  obtain ⟨info, hinfo, rfl⟩ := Option.map_eq_some_iff.mp hstake
  exact hall (s, info) (exists_mem_toList hinfo)

/-- **A validator that votes twice in a batch**: the stake is taken from the first slot before it is
added there, which aborts a build with overflow checks, while the votes one at a time return. -/
theorem addVotes_twice_underflows : ∃ fc, Reachable .checked oneStake Call.Linked 0 fc ∧
    (∀ vote ∈ ([(7, 1), (7, 2)] : List (Pubkey × Nat)), fc.containsSlot vote.2 = true) ∧
    (fc.addVotes .checked [(7, 1), (7, 2)] oneStake).map (fun _ => ()) = .error .overflow ∧
    (addVotesSingly .checked oneStake fc [(7, 1), (7, 2)]).map (fun fc => fc.stakeVotedAt 2) =
      .ok (some 10) := by
  refine exists_reachable forkCalls ?_
  decide +kernel

end Panoptes.ForkChoice
