import Panoptes.ForkChoice.Votes

/-!
# The updates of a batch of votes

`generate_update_operations` turns a list of votes into a map of updates: an amount to add and an
amount to subtract at some slots, and the slots to aggregate.

* `Updates` — every update has the operation of its label, and the parent of a slot with an update
  is to be aggregated.  The early exit of `insert_aggregate_operations` relies on the second.
* `generateUpdates_returns` — the amounts are the stakes that arrive and depart, unless one of them
  overflows.
-/

set_option autoImplicit false

namespace Panoptes.ForkChoice

open Lib Sdk HeaviestSubtreeForkChoice
open Std (ExtTreeMap)

/-- Keys are compared by the linear order of pairs. -/
instance : Std.LawfulEqOrd (Nat ×ₗ UpdateLabel) where
  compare_self := compare_eq_iff_eq.mpr rfl
  eq_of_compare h := compare_eq_iff_eq.mp h

/-! ## Amounts and labels -/

section

variable (fc : HeaviestSubtreeForkChoice) (ops : UpdateOperations)

def UpdateOperation.label : UpdateOperation → UpdateLabel
  | .aggregate => .aggregate
  | .add _ => .add
  | .subtract _ => .subtract

def UpdateOperation.amount : UpdateOperation → Nat
  | .aggregate => 0
  | .add stake => stake
  | .subtract stake => stake

/-- The amount of the update of a slot with a label. -/
def amount (ops : UpdateOperations) (label : UpdateLabel) (s : Nat) : Nat :=
  (ops[toLex (s, label)]?).elim 0 UpdateOperation.amount

def HasUpdate (label : UpdateLabel) (s : Nat) : Prop :=
  ops[toLex (s, label)]? ≠ none

def Labelled : Prop :=
  ∀ (s : Nat) (label : UpdateLabel) (op : UpdateOperation),
    ops[toLex (s, label)]? = some op → op.label = label

/-- The parent of a slot with an update is aggregated, except perhaps that of slot `x`. -/
def ClosedExcept (x : Option Nat) (ops : UpdateOperations) : Prop :=
  ∀ (s : Nat) (label : UpdateLabel), HasUpdate ops label s → x ≠ some s →
    ∀ p, (fc.entry s).parent = some p → HasUpdate ops .aggregate p

structure Updates : Prop where
  labelled : Labelled ops
  closed : ClosedExcept fc none ops

end

variable {fc : HeaviestSubtreeForkChoice} {ops ops' : UpdateOperations} {s t : Nat}
  {op : UpdateOperation} {label' : UpdateLabel} {label : UpdateLabel} {o : Overflow}

theorem amount_of_getElem? (h : ops[toLex (s, label)]? = some op) :
    amount ops label s = op.amount := by
  unfold amount
  rw [h]
  rfl

theorem hasUpdate_of_getElem? (h : ops[toLex (s, label)]? = some op) : HasUpdate ops label s := by
  unfold HasUpdate
  rw [h]
  simp

theorem getElem?_insert_update (ops : UpdateOperations) (s t : Nat) (label label' : UpdateLabel)
    (op : UpdateOperation) : (ops.insert (toLex (s, label)) op)[toLex (t, label')]? =
      if t = s ∧ label' = label then some op else ops[toLex (t, label')]? := by
  rw [getElem?_insert_ite]
  have hiff : toLex (t, label') = toLex (s, label) ↔ t = s ∧ label' = label := by
    rw [toLex_inj, Prod.mk.injEq]
  by_cases h : t = s ∧ label' = label
  · rw [if_pos h, if_pos (hiff.mpr h)]
  · rw [if_neg h, if_neg (mt hiff.mp h)]

theorem Labelled.insert (h : Labelled ops) (hop : op.label = label) :
    Labelled (ops.insert (toLex (s, label)) op) := by
  intro t label' op' hget
  rw [getElem?_insert_update] at hget
  split at hget
  · rename_i heq
    cases hget
    rw [heq.2, hop]
  · exact h t label' op' hget

theorem HasUpdate.insert (label' : UpdateLabel) (op : UpdateOperation) (h : HasUpdate ops label t) :
    HasUpdate (ops.insert (toLex (s, label')) op) label t := by
  unfold HasUpdate
  rw [getElem?_insert_update]
  split
  · simp
  · exact h

theorem hasUpdate_insert_self (op : UpdateOperation) :
    HasUpdate (ops.insert (toLex (s, label)) op) label s := by
  unfold HasUpdate
  simp

theorem hasUpdate_of_insert (h : HasUpdate (ops.insert (toLex (s, label')) op) label t)
    (hne : t ≠ s) : HasUpdate ops label t := by
  unfold HasUpdate at h ⊢
  rw [getElem?_insert_update, if_neg fun heq => hne heq.1] at h
  exact h

theorem Updates.insert (h : Updates fc ops) (hop : op.label = label) :
    Labelled (ops.insert (toLex (s, label)) op) ∧
      ClosedExcept fc (some s) (ops.insert (toLex (s, label)) op) := by
  refine ⟨h.labelled.insert hop, fun t label' ht hne p hp => ?_⟩
  have hts : t ≠ s := fun heq => hne (heq ▸ rfl)
  exact (h.closed t label' (hasUpdate_of_insert ht hts) (by simp) p hp).insert _ _

theorem amount_insert_of_ne (h : ¬ (t = s ∧ label' = label)) :
    amount (ops.insert (toLex (s, label)) op) label' t = amount ops label' t := by
  unfold amount
  rw [getElem?_insert_update, if_neg h]

theorem amount_insert_self (op : UpdateOperation) :
    amount (ops.insert (toLex (s, label)) op) label s = op.amount := by
  unfold amount
  rw [getElem?_insert_update, if_pos ⟨rfl, rfl⟩]
  rfl

/-! ## Adding to an amount -/

/-- What `and_modify … or_insert` does to an amount: the label of `fresh` says where it goes. -/
theorem insertStake_returns (o : Overflow) (h : Updates fc ops) (s : Nat) {fresh : UpdateOperation}
    (hfresh : fresh.label = label) (hlabel : label ≠ .aggregate) :
    Returns (insertStake o ops (toLex (s, label)) fresh fresh.amount)
      (fun ops' => Labelled ops' ∧ ClosedExcept fc (some s) ops' ∧
        (∀ t label', ¬ (t = s ∧ label' = label) → amount ops' label' t = amount ops label' t) ∧
        (amount ops label s + fresh.amount < U64 →
          amount ops' label s = amount ops label s + fresh.amount))
      (o.AbortsUnless (amount ops label s + fresh.amount < U64)) := by
  unfold insertStake
  cases hget : ops[toLex (s, label)]? with
  | none =>
    have hzero : amount ops label s = 0 := by
      unfold amount
      rw [hget]
      rfl
    obtain ⟨hlabelled, hclosed⟩ := h.insert hfresh
    refine ⟨hlabelled, hclosed, fun t label' hne => amount_insert_of_ne hne, fun _ => ?_⟩
    rw [amount_insert_self, hzero, Nat.zero_add]
  | some update =>
    have hupdate : amount ops label s = update.amount := amount_of_getElem? hget
    have hkind := h.labelled s label update hget
    -- the label excludes an aggregation, so that the amount is increased
    have hstep : ∃ mk : Nat → UpdateOperation, (∀ x, (mk x).label = label ∧ (mk x).amount = x) ∧
        update.updateStake o fresh.amount = (do
          let stake ← addU64 o update.amount fresh.amount
          .ok (mk stake)) := by
      cases update with
      | aggregate => exact absurd hkind.symm hlabel
      | add stake => exact ⟨.add, fun x => ⟨hkind, rfl⟩, rfl⟩
      | subtract stake => exact ⟨.subtract, fun x => ⟨hkind, rfl⟩, rfl⟩
    obtain ⟨mk, hmk, hstep⟩ := hstep
    have hdone : ∀ x, Labelled (ops.insert (toLex (s, label)) (mk x)) ∧
        ClosedExcept fc (some s) (ops.insert (toLex (s, label)) (mk x)) ∧
        (∀ t label', ¬ (t = s ∧ label' = label) →
          amount (ops.insert (toLex (s, label)) (mk x)) label' t = amount ops label' t) := fun x =>
      ⟨(h.insert (hmk x).1).1, (h.insert (hmk x).1).2, fun t label' hne => amount_insert_of_ne hne⟩
    simp only [hstep]
    rw [hupdate]
    unfold addU64
    by_cases hfit : update.amount + fresh.amount < U64
    · rw [if_pos hfit]
      refine ⟨(hdone _).1, (hdone _).2.1, (hdone _).2.2, fun _ => ?_⟩
      rw [amount_insert_self, (hmk _).2]
    · rw [if_neg hfit]
      cases o with
      | checked => exact ⟨rfl, rfl, hfit⟩
      | wrapping => exact ⟨(hdone _).1, (hdone _).2.1, (hdone _).2.2, fun h => absurd h hfit⟩

/-! ## Aggregations -/

/-- The list of the ancestors of a slot, from its parent up. -/
inductive Ancestors (fc : HeaviestSubtreeForkChoice) : Nat → List Nat → Prop where
  | root {s : Nat} (h : (fc.entry s).parent = none) : Ancestors fc s []
  | cons {s p : Nat} {rest : List Nat} (h : (fc.entry s).parent = some p)
      (hrest : Ancestors fc p rest) : Ancestors fc s (p :: rest)

theorem ancestorsLoop_returns (htree : fc.IsTree) {fuel : Nat} (hfuel : s < fuel) :
    ∃ ancestors, fc.ancestorsLoop fuel s = .ok ancestors ∧ Ancestors fc s ancestors := by
  induction fuel generalizing s with
  | zero => omega
  | succ fuel ih =>
    unfold ancestorsLoop
    rw [parent_eq]
    cases hp : (fc.entry s).parent with
    | none => exact ⟨[], rfl, Ancestors.root hp⟩
    | some p =>
      have hlt := (htree.parent_lt hp).1
      obtain ⟨rest, hrest, hancestors⟩ := @ih p (by omega)
      refine ⟨p :: rest, ?_, Ancestors.cons hp hancestors⟩
      simp only [hrest, bind, Except.bind]

/-- **Aggregating the ancestors of a slot** up to the first that is already there closes the
updates: the one found has its own ancestors aggregated. -/
theorem insertAggregates_updates {ancestors : List Nat} (h : Ancestors fc s ancestors)
    (hlabelled : Labelled ops) (hclosed : ClosedExcept fc (some s) ops) :
    Updates fc (insertAggregates ancestors ops) := by
  induction h generalizing ops with
  | root hparent =>
    refine ⟨hlabelled, fun t label ht _ p hp => hclosed t label ht ?_ p hp⟩
    rintro ⟨⟩
    rw [hparent] at hp
    cases hp
  | @cons s p rest hparent _ ih =>
    unfold insertAggregates
    split
    · rename_i hthere
      refine ⟨hlabelled, fun t label ht _ q hq => ?_⟩
      by_cases hts : t = s
      · rw [hts, hparent] at hq
        cases hq
        exact Option.isSome_iff_ne_none.mp hthere
      · exact hclosed t label ht (fun heq => hts (Option.some.inj heq).symm) q hq
    · refine ih (hlabelled.insert rfl) fun t label ht hne q hq => ?_
      by_cases hts : t = s
      · rw [hts, hparent] at hq
        cases hq
        exact hasUpdate_insert_self _
      · have htp : t ≠ p := fun heq => hne (heq ▸ rfl)
        exact (hclosed t label (hasUpdate_of_insert ht htp)
          (fun heq => hts (Option.some.inj heq).symm) q hq).insert _ _

theorem insertAggregates_amount (ancestors : List Nat) (ops : UpdateOperations)
    (hlabel : label ≠ .aggregate)
    (t : Nat) : amount (insertAggregates ancestors ops) label t = amount ops label t := by
  induction ancestors generalizing ops with
  | nil => rfl
  | cons p rest ih =>
    unfold insertAggregates
    split
    · rfl
    · rw [ih, amount_insert_of_ne fun heq => hlabel heq.2]

/-- An amount of stake goes into the updates, and the ancestors are aggregated. -/
theorem insertStake_aggregate_returns (o : Overflow) (htree : fc.IsTree)
    (h : Updates fc ops) (s : Nat)
    (label : UpdateLabel) (fresh : UpdateOperation) (hfresh : fresh.label = label)
    (hlabel : label ≠ .aggregate) : Returns (do
        let ops ← insertStake o ops (toLex (s, label)) fresh fresh.amount
        fc.insertAggregateOperations ops s)
      (fun ops' => Updates fc ops' ∧
        (∀ t label', label' ≠ .aggregate → ¬ (t = s ∧ label' = label) →
          amount ops' label' t = amount ops label' t) ∧
        (amount ops label s + fresh.amount < U64 →
          amount ops' label s = amount ops label s + fresh.amount))
      (o.AbortsUnless (amount ops label s + fresh.amount < U64)) := by
  refine (insertStake_returns o h s hfresh hlabel).bind fun ops' h' => ?_
  obtain ⟨hlabelled, hclosed, hothers, hself⟩ := h'
  obtain ⟨ancestors, hloop, hancestors⟩ := ancestorsLoop_returns htree (Nat.lt_succ_self s)
  unfold insertAggregateOperations ancestorIterator
  rw [hloop]
  refine ⟨insertAggregates_updates hancestors hlabelled hclosed,
    fun t label' hl hne => ?_, fun hfit => ?_⟩
  · rw [insertAggregates_amount _ _ hl, hothers t label' hne]
  · rw [insertAggregates_amount _ _ hlabel, hself hfit]

/-! ## A vote -/

def AmountsFit (ops : UpdateOperations) (arrival departure : Nat → Nat) : Prop :=
  ∀ s, amount ops .add s + arrival s < U64 ∧ amount ops .subtract s + departure s < U64

/-- The amounts after stake has arrived and departed. -/
def AmountsGrow (ops ops' : UpdateOperations) (arrival departure : Nat → Nat) : Prop :=
  ∀ s, amount ops' .add s = amount ops .add s + arrival s ∧
    amount ops' .subtract s = amount ops .subtract s + departure s

section

variable (o : Overflow) (es : EpochStakes) (htree : fc.IsTree) (h : Updates fc ops)
include htree h

/-- Taking the stake of a validator away from its previous vote. -/
theorem removeOldVote_returns
    (pubkey : Pubkey) (old : Option Nat) :
    Returns (fc.removeOldVote o es ops pubkey old)
      (fun ops' => Updates fc ops' ∧ (∀ s, amount ops' .add s = amount ops .add s) ∧
        ((∀ s, amount ops .subtract s + (if old = some s then es.stake pubkey s else 0) < U64) →
          ∀ s, amount ops' .subtract s =
            amount ops .subtract s + if old = some s then es.stake pubkey s else 0))
      (o.AbortsUnless
        (∀ s, amount ops .subtract s + (if old = some s then es.stake pubkey s else 0) < U64)) := by
  cases old with
  | none => exact ⟨h, fun _ => rfl, fun _ s => by simp⟩
  | some slot =>
    simp only [removeOldVote]
    by_cases hstake : es.stake pubkey slot > 0
    · rw [if_pos hstake]
      refine ((insertStake_aggregate_returns o htree h slot .subtract
        (.subtract (es.stake pubkey slot)) rfl (by decide)).imp fun ops' h' => ?_).imp_error
        fun e he => ?_
      · obtain ⟨hupdates, hothers, hself⟩ := h'
        refine ⟨hupdates, fun s => hothers s .add (by decide) (by simp), fun hfit s => ?_⟩
        by_cases hs : slot = s
        · subst hs
          have hfits := hfit slot
          rw [if_pos rfl] at hfits ⊢
          exact hself hfits
        · rw [if_neg fun heq => hs (Option.some.inj heq)]
          exact hothers s .subtract (by decide) fun heq => hs heq.1.symm
      · refine ⟨he.1, he.2.1, fun hfit => he.2.2 ?_⟩
        have hfits := hfit slot
        rw [if_pos rfl] at hfits
        exact hfits
    · rw [if_neg hstake]
      refine ⟨h, fun _ => rfl, fun _ s => ?_⟩
      by_cases hs : slot = s
      · rw [if_pos (congrArg some hs), ← hs]
        omega
      · rw [if_neg fun heq => hs (Option.some.inj heq), Nat.add_zero]

/-- **One vote**: the stake that it moves goes into the amounts. -/
theorem generateUpdate_returns
    (vote : Pubkey × Nat) :
    Returns (generateUpdate o es (fc, ops) vote)
      (fun r => r.1 = { fc with latestVotes := castVote fc.latestVotes vote } ∧ Updates fc r.2 ∧
        (AmountsFit ops (arrives es fc.latestVotes vote) (departs es fc.latestVotes vote) →
          AmountsGrow ops r.2 (arrives es fc.latestVotes vote) (departs es fc.latestVotes vote)))
      (o.AbortsUnless
        (AmountsFit ops (arrives es fc.latestVotes vote) (departs es fc.latestVotes vote))) := by
  unfold generateUpdate AmountsFit AmountsGrow castVote arrives departs
  by_cases hnew : vote.2 ≤ fc.latestVotes[vote.1]?.getD 0
  · simp only [if_pos hnew]
    exact ⟨rfl, h, fun _ s => ⟨rfl, rfl⟩⟩
  simp only [if_neg hnew]
  -- the entries and so the links are those of `fc`
  have htree' : { fc with latestVotes := fc.latestVotes.insert vote.1 vote.2 }.IsTree :=
    htree.sameLinks ⟨rfl, rfl, fun _ => rfl, fun _ => rfl⟩
  have h' : Updates { fc with latestVotes := fc.latestVotes.insert vote.1 vote.2 } ops :=
    ⟨h.labelled, h.closed⟩
  refine ((removeOldVote_returns o es htree' h' vote.1 fc.latestVotes[vote.1]?).imp_error
    fun e he => ?_).bind fun ops₁ h₁ => ?_
  · exact ⟨he.1, he.2.1, fun hfit => he.2.2 fun s => (hfit s).2⟩
  obtain ⟨hupdates, hadd, hsub⟩ := h₁
  rw [← bind_assoc]
  refine ((insertStake_aggregate_returns o htree' hupdates vote.2 .add
    (.add (es.stake vote.1 vote.2)) rfl (by decide)).imp_error fun e he => ?_).bind
      fun ops₂ h₂ => ?_
  · refine ⟨he.1, he.2.1, fun hfit => he.2.2 ?_⟩
    have hfits := (hfit vote.2).1
    rw [if_pos rfl] at hfits
    rw [hadd]
    exact hfits
  obtain ⟨hupdates₂, hothers, hself⟩ := h₂
  refine ⟨rfl, ⟨hupdates₂.labelled, hupdates₂.closed⟩, fun hfit s => ⟨?_, ?_⟩⟩
  · by_cases hs : vote.2 = s
    · subst hs
      have hfits := (hfit vote.2).1
      rw [if_pos rfl] at hfits ⊢
      rw [← hadd] at hfits ⊢
      exact hself hfits
    · rw [if_neg hs, ← hadd]
      exact hothers s .add (by decide) fun heq => hs heq.1.symm
  · rw [← hsub (fun s => (hfit s).2) s]
    exact hothers s .subtract (by decide) (by simp)

/-- **The updates of a batch**: the votes are recorded, and the amounts are the stakes that arrive
and depart, unless one of them overflows. -/
theorem generateUpdates_returns (votes : List (Pubkey × Nat)) :
    Returns (votes.foldlM (generateUpdate o es) (fc, ops))
      (fun r => r.1 = { fc with latestVotes := castVotes fc.latestVotes votes } ∧ Updates fc r.2 ∧
        (AmountsFit ops (arriving es fc.latestVotes votes) (departing es fc.latestVotes votes) →
          AmountsGrow ops r.2 (arriving es fc.latestVotes votes)
            (departing es fc.latestVotes votes)))
      (o.AbortsUnless
        (AmountsFit ops (arriving es fc.latestVotes votes)
          (departing es fc.latestVotes votes))) := by
  induction votes generalizing fc ops with
  | nil => exact ⟨rfl, h, fun _ s => ⟨rfl, rfl⟩⟩
  | cons vote votes ih =>
    have hfirst : AmountsFit ops (arriving es fc.latestVotes (vote :: votes))
        (departing es fc.latestVotes (vote :: votes)) →
        AmountsFit ops (arrives es fc.latestVotes vote) (departs es fc.latestVotes vote) := by
      intro hfit s
      have hfits := hfit s
      simp only [arriving, departing] at hfits
      omega
    refine ((generateUpdate_returns o es htree h vote).imp_error fun e he =>
      ⟨he.1, he.2.1, fun hfit => he.2.2 (hfirst hfit)⟩).bind fun r hr => ?_
    obtain ⟨fc₁, ops₁⟩ := r
    obtain ⟨hfc, hupdates, hgrow⟩ := hr
    simp only at hfc hupdates hgrow
    subst hfc
    have htree' : { fc with latestVotes := castVote fc.latestVotes vote }.IsTree :=
      htree.sameLinks ⟨rfl, rfl, fun _ => rfl, fun _ => rfl⟩
    have hrest : AmountsFit ops (arriving es fc.latestVotes (vote :: votes))
        (departing es fc.latestVotes (vote :: votes)) →
        AmountsFit ops₁ (arriving es (castVote fc.latestVotes vote) votes)
          (departing es (castVote fc.latestVotes vote) votes) := by
      intro hfit s
      have hfits := hfit s
      have hamounts := hgrow (hfirst hfit) s
      simp only [arriving, departing] at hfits
      omega
    refine ((ih htree' ⟨hupdates.labelled, hupdates.closed⟩).imp_error fun e he =>
      ⟨he.1, he.2.1, fun hfit => he.2.2 (hrest hfit)⟩).imp fun r hr => ?_
    obtain ⟨hfc, hupdates', hgrow'⟩ := hr
    refine ⟨hfc, ⟨hupdates'.labelled, hupdates'.closed⟩, fun hfit s => ?_⟩
    have hamounts := hgrow (hfirst hfit) s
    have hamounts' := hgrow' (hrest hfit) s
    dsimp only at hamounts'
    simp only [arriving, departing]
    omega

end

theorem updates_empty (fc : HeaviestSubtreeForkChoice) : Updates fc ∅ := by
  refine ⟨fun s label op h => ?_, fun s label h => ?_⟩
  · simp at h
  · exact absurd (by simp) h

theorem amount_empty (label : UpdateLabel) (s : Nat) : amount ∅ label s = 0 := by
  unfold amount
  simp

end Panoptes.ForkChoice
