import Panoptes.ForkChoice.Tree

/-!
# What a batch of votes does to the stakes

The latest votes of the validators say how much stake is voted at each slot.  A batch of votes moves
stake between slots: `arriving` and `departing` say how much comes to a slot and leaves it when the
votes are counted one after the other.

* `StakeTable` — stakes that are lamports of one supply, so that no two sums over different
  validators overflow a `u64`.
* `votesAt` — the stake of the validators whose latest vote is a slot.
* `castVotes_votesAt` — stake is conserved: what was voted at a slot and what arrives is what is
  voted there and what departed.
* `arriving_fits`, `departing_fits`, `subtreeSum_arriving_fits` — the sums that occur in a batch fit
  a `u64`, since no validator is counted twice.
-/

set_option autoImplicit false

namespace Panoptes.ForkChoice

open Lib Sdk Finset
open Std (ExtTreeMap)

/-- Stakes whose sums are amounts of lamports: the stakes of different validators, each at a slot of
its own, add up to less than `2^64`. -/
structure StakeTable extends EpochStakes where
  fits : ∀ (voters : Finset Pubkey) (slot : Pubkey → Nat),
    ∑ pubkey ∈ voters, toEpochStakes.stake pubkey (slot pubkey) < U64

/-! ## Latest votes -/

section

variable (es : EpochStakes) (latest : ExtTreeMap Pubkey Nat) (vote : Pubkey × Nat) (s : Nat)

/-- `latest_votes` after a vote: a vote that is not newer is dropped. -/
def castVote : ExtTreeMap Pubkey Nat :=
  if vote.2 ≤ latest[vote.1]?.getD 0 then latest else latest.insert vote.1 vote.2

/-- `latest_votes` after a list of votes. -/
def castVotes (votes : List (Pubkey × Nat)) : ExtTreeMap Pubkey Nat :=
  votes.foldl castVote latest

/-- The stake that a vote brings to slot `s`. -/
def arrives : Nat :=
  if vote.2 ≤ latest[vote.1]?.getD 0 then 0 else if vote.2 = s then es.stake vote.1 s else 0

/-- The stake that a vote takes away from slot `s`. -/
def departs : Nat :=
  if vote.2 ≤ latest[vote.1]?.getD 0 then 0
  else if latest[vote.1]? = some s then es.stake vote.1 s else 0

/-- The stake that comes to slot `s` while the votes are counted one after the other. -/
def arriving (es : EpochStakes) : ExtTreeMap Pubkey Nat → List (Pubkey × Nat) → Nat → Nat
  | _, [], _ => 0
  | latest, vote :: votes, s =>
    arrives es latest vote s + arriving es (castVote latest vote) votes s

/-- The stake that leaves slot `s` while the votes are counted one after the other. -/
def departing (es : EpochStakes) : ExtTreeMap Pubkey Nat → List (Pubkey × Nat) → Nat → Nat
  | _, [], _ => 0
  | latest, vote :: votes, s =>
    departs es latest vote s + departing es (castVote latest vote) votes s

/-- The stake of the validators whose latest vote is `s`. -/
def votesAt : Nat :=
  mapSum latest fun pubkey slot => if slot = s then es.stake pubkey slot else 0

end

variable {es : EpochStakes} {latest : ExtTreeMap Pubkey Nat} {vote : Pubkey × Nat}
  {votes : List (Pubkey × Nat)} {s : Nat} {pubkey : Pubkey}

theorem castVote_mono (latest : ExtTreeMap Pubkey Nat) (vote : Pubkey × Nat) (pubkey : Pubkey) :
    latest[pubkey]?.getD 0 ≤ (castVote latest vote)[pubkey]?.getD 0 := by
  unfold castVote
  split
  · exact le_refl _
  · rw [getElem?_insert_ite]
    split
    · rename_i h
      rw [h, Option.getD_some]
      omega
    · exact le_refl _

theorem castVote_of_newer (h : ¬ vote.2 ≤ latest[vote.1]?.getD 0) :
    castVote latest vote = latest.insert vote.1 vote.2 := if_neg h

section

variable (es : EpochStakes) (latest : ExtTreeMap Pubkey Nat)

/-- A vote moves the stake of its validator from one slot to another. -/
theorem castVote_votesAt (vote : Pubkey × Nat)
    (s : Nat) : votesAt es (castVote latest vote) s + departs es latest vote s =
      votesAt es latest s + arrives es latest vote s := by
  unfold castVote departs arrives
  by_cases hnew : vote.2 ≤ latest[vote.1]?.getD 0
  · rw [if_pos hnew, if_pos hnew, if_pos hnew]
  · rw [if_neg hnew, if_neg hnew, if_neg hnew]
    have hinsert := mapSum_insert latest
      (fun pubkey slot => if slot = s then es.stake pubkey slot else 0) vote.1 vote.2
    have hold : (if latest[vote.1]? = some s then es.stake vote.1 s else 0) =
        (latest[vote.1]?).elim 0 fun slot => if slot = s then es.stake vote.1 slot else 0 := by
      cases latest[vote.1]? with
      | none => rfl
      | some slot =>
        by_cases hs : slot = s
        · simp [hs]
        · simp [hs]
    have hnew : (if vote.2 = s then es.stake vote.1 s else 0) =
        if vote.2 = s then es.stake vote.1 vote.2 else 0 := by
      split
      · rename_i h
        rw [h]
      · rfl
    rw [hold, hnew]
    exact hinsert

/-- **Stake is conserved**: what is voted at a slot after a batch, and what departed from it, is
what was voted there and what arrived. -/
theorem castVotes_votesAt
    (votes : List (Pubkey × Nat)) (s : Nat) :
    votesAt es (castVotes latest votes) s + departing es latest votes s =
      votesAt es latest s + arriving es latest votes s := by
  induction votes generalizing latest with
  | nil => rfl
  | cons vote votes ih =>
    have hstep := castVote_votesAt es latest vote s
    have hrest := ih (castVote latest vote)
    have hcons : castVotes latest (vote :: votes) = castVotes (castVote latest vote) votes := rfl
    rw [hcons]
    simp only [departing, arriving]
    omega

/-- The stake voted at the slots of a set is the stake of the validators whose latest vote is in
it. -/
theorem sum_votesAt (nodes : Finset Nat) :
    ∑ s ∈ nodes, votesAt es latest s =
      ∑ pubkey ∈ latest.keys.toFinset with latest[pubkey]?.getD 0 ∈ nodes,
        es.stake pubkey (latest[pubkey]?.getD 0) := by
  unfold votesAt mapSum
  rw [sum_comm, sum_filter]
  refine sum_congr rfl fun pubkey hmem => ?_
  obtain ⟨slot, hslot⟩ := Option.ne_none_iff_exists'.mp (mem_keys_toFinset.mp hmem)
  rw [hslot]
  exact sum_ite_eq nodes slot fun _ => es.stake pubkey slot

end

/-! ## Sums that fit -/

section Fits

variable (table : StakeTable)

/-- One more validator, at a slot of its own. -/
theorem StakeTable.add_fresh {voters : Finset Pubkey} {slot : Pubkey → Nat} {x : Nat}
    (hfresh : pubkey ∉ voters)
    (h : x + ∑ p ∈ insert pubkey voters, table.stake p (Function.update slot pubkey s p) < U64) :
    table.stake pubkey s + x + ∑ p ∈ voters, table.stake p (slot p) < U64 := by
  have hsum : ∑ p ∈ voters, table.stake p (Function.update slot pubkey s p) = ∑ p ∈ voters,
      table.stake p (slot p) := by
    refine sum_congr rfl fun p hmem => ?_
    rw [Function.update_of_ne]
    rintro rfl
    exact hfresh hmem
  rw [sum_insert hfresh, Function.update_self] at h
  omega

section

variable (votes : List (Pubkey × Nat)) (latest : ExtTreeMap Pubkey Nat) (s : Nat)
  (voters : Finset Pubkey) (slot : Pubkey → Nat)

/-- A validator comes to a slot at most once, and not if its latest vote is there or later: what
arrives at `s` can be added to the stakes of such validators. -/
theorem arriving_fits (hvoters : ∀ pubkey ∈ voters, s ≤ latest[pubkey]?.getD 0) :
    arriving table.toEpochStakes latest votes s + ∑ pubkey ∈ voters,
      table.stake pubkey (slot pubkey) < U64 := by
  induction votes generalizing latest voters slot with
  | nil =>
    simp only [arriving, Nat.zero_add]
    exact table.fits voters slot
  | cons vote votes ih =>
    have hmono : ∀ pubkey ∈ voters, s ≤ (castVote latest vote)[pubkey]?.getD 0 := fun pubkey hmem =>
      (hvoters pubkey hmem).trans (castVote_mono latest vote pubkey)
    unfold arriving arrives
    by_cases hnew : vote.2 ≤ latest[vote.1]?.getD 0
    · rw [if_pos hnew, Nat.zero_add]
      exact ih _ voters slot hmono
    · rw [if_neg hnew]
      by_cases hs : vote.2 = s
      · rw [if_pos hs]
        have hfresh : vote.1 ∉ voters := fun hmem => by
          have := hvoters vote.1 hmem
          omega
        refine table.add_fresh hfresh (ih (castVote latest vote) _ _ fun pubkey hmem => ?_)
        rcases mem_insert.mp hmem with rfl | hmem
        · rw [castVote_of_newer hnew, getElem?_insert_ite, if_pos rfl, Option.getD_some, hs]
        · exact hmono pubkey hmem
      · rw [if_neg hs, Nat.zero_add]
        exact ih _ voters slot hmono

/-- A validator leaves a slot at most once, and not if its latest vote is later. -/
theorem departing_fits (hvoters : ∀ pubkey ∈ voters, s < latest[pubkey]?.getD 0) :
    departing table.toEpochStakes latest votes s + ∑ pubkey ∈ voters,
      table.stake pubkey (slot pubkey) < U64 := by
  induction votes generalizing latest voters slot with
  | nil =>
    simp only [departing, Nat.zero_add]
    exact table.fits voters slot
  | cons vote votes ih =>
    have hmono : ∀ pubkey ∈ voters, s < (castVote latest vote)[pubkey]?.getD 0 := fun pubkey hmem =>
      (hvoters pubkey hmem).trans_le (castVote_mono latest vote pubkey)
    unfold departing departs
    by_cases hnew : vote.2 ≤ latest[vote.1]?.getD 0
    · rw [if_pos hnew, Nat.zero_add]
      exact ih _ voters slot hmono
    · rw [if_neg hnew]
      by_cases hs : latest[vote.1]? = some s
      · rw [if_pos hs]
        have hfresh : vote.1 ∉ voters := fun hmem => by
          have := hvoters vote.1 hmem
          rw [hs, Option.getD_some] at this
          omega
        refine table.add_fresh hfresh (ih (castVote latest vote) _ _ fun pubkey hmem => ?_)
        rcases mem_insert.mp hmem with rfl | hmem
        · rw [castVote_of_newer hnew, getElem?_insert_ite, if_pos rfl, Option.getD_some]
          rw [hs, Option.getD_some] at hnew
          omega
        · exact hmono pubkey hmem
      · rw [if_neg hs, Nat.zero_add]
        exact ih _ voters slot hmono

end

theorem StakeTable.amounts_fit (latest : ExtTreeMap Pubkey Nat)
    (votes : List (Pubkey × Nat)) (s : Nat) : arriving table.toEpochStakes latest votes s < U64 ∧
      departing table.toEpochStakes latest votes s < U64 := by
  have harriving := arriving_fits table votes latest s ∅ (fun _ => 0) (by simp)
  have hdeparting := departing_fits table votes latest s ∅ (fun _ => 0) (by simp)
  exact ⟨harriving, hdeparting⟩

theorem sum_votesAt_fits (latest : ExtTreeMap Pubkey Nat) (nodes : Finset Nat) :
    ∑ s ∈ nodes, votesAt table.toEpochStakes latest s < U64 := by
  rw [sum_votesAt]
  exact table.fits _ _

/-- Stake that arrives at a slot can be added to the stake voted in the subtree before. -/
theorem subtreeSum_arriving_fits {F : Forest Nat} {nodes : Finset Nat} {at₀ : Nat → Nat}
    {latest : ExtTreeMap Pubkey Nat}
    (hat : ∀ s ∈ nodes, at₀ s ≤ votesAt table.toEpochStakes latest s)
    (votes : List (Pubkey × Nat)) (s : Nat) :
    F.subtreeSum nodes at₀ s + arriving table.toEpochStakes latest votes s < U64 := by
  classical
  have hle : F.subtreeSum nodes at₀ s ≤
      ∑ t ∈ nodes.filter (F.Below s), votesAt table.toEpochStakes latest t := by
    unfold Forest.subtreeSum
    rw [← sum_filter]
    exact sum_le_sum fun t ht => hat t (mem_filter.mp ht).1
  rw [sum_votesAt] at hle
  have hfits := arriving_fits table votes latest s
    (latest.keys.toFinset.filter fun pubkey => latest[pubkey]?.getD 0 ∈ nodes.filter (F.Below s))
    (fun pubkey => latest[pubkey]?.getD 0) fun pubkey hmem =>
      (mem_filter.mp (mem_filter.mp hmem).2).2.le
  omega

end Fits

end Panoptes.ForkChoice
