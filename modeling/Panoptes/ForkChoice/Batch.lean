import Panoptes.ForkChoice.Process

/-!
# A batch of votes

* `addVotes_returns` — `add_votes` keeps the links, records the votes, and returns unless a number
  overflows.
* `Sound` — the links describe a tree, the rule holds at every slot, and no slot has more stake than
  the latest votes give it.
* `Sound.addVotes` — in a sound state, `add_votes` returns if what departs from each slot is voted
  there, and the stakes voted at the slots change by what arrives and departs.
* `departing_le_of_addVotes` — a build with overflow checks returns only if that is so.
-/

set_option autoImplicit false

namespace Panoptes.ForkChoice

open Lib Sdk
open Std (ExtTreeMap)
open HeaviestSubtreeForkChoice

variable {fc fc' : HeaviestSubtreeForkChoice} {votes : List (Pubkey × Nat)} {es : EpochStakes}
  {s : Nat} {table : StakeTable}

/-! ## Any batch -/

structure BatchFits (es : EpochStakes) (fc : HeaviestSubtreeForkChoice)
    (votes : List (Pubkey × Nat)) : Prop where
  ruled : ∀ s, fc.RuledAt s
  amounts : ∀ s, arriving es fc.latestVotes votes s < U64 ∧
    departing es fc.latestVotes votes s < U64
  departing_le : ∀ s ∈ fc.slots, departing es fc.latestVotes votes s ≤ fc.votedAt s
  arriving_lt : ∀ s ∈ fc.slots, fc.weight s + arriving es fc.latestVotes votes s < U64
  total_lt : ∑ s ∈ fc.slots, (fc.votedAt s - departing es fc.latestVotes votes s +
    arriving es fc.latestVotes votes s) < U64

/-- The state in which the updates of a batch are applied. -/
def recordVotes (fc : HeaviestSubtreeForkChoice) (votes : List (Pubkey × Nat)) :
    HeaviestSubtreeForkChoice :=
  { fc with latestVotes := castVotes fc.latestVotes votes }

theorem sameLinks_recordVotes (fc : HeaviestSubtreeForkChoice) (votes : List (Pubkey × Nat)) :
    SameLinks fc (recordVotes fc votes) := ⟨rfl, rfl, fun _ => rfl, fun _ => rfl⟩

theorem ruledAt_recordVotes (h : fc.RuledAt s) : (recordVotes fc votes).RuledAt s :=
  h.congr rfl rfl rfl rfl fun _ _ => ⟨rfl, rfl⟩

theorem amountsFit_empty {arrival departure : Nat → Nat} :
    AmountsFit ∅ arrival departure ↔ ∀ s, arrival s < U64 ∧ departure s < U64 := by
  unfold AmountsFit
  simp only [amount_empty, Nat.zero_add]

/-- **`add_votes`** keeps the links and records the votes; it aborts only if a number overflows, and
otherwise the stakes change by what arrives and departs and the rule holds at every slot. -/
theorem addVotes_returns (o : Overflow) (es : EpochStakes) (htree : fc.IsTree)
    (votes : List (Pubkey × Nat)) : Returns (fc.addVotes o votes es)
      (fun r => SameLinks fc r.1 ∧ r.1.latestVotes = castVotes fc.latestVotes votes ∧
        r.2 = (r.1.entry r.1.root).bestSlot ∧
        (BatchFits es fc votes → (∀ s, r.1.RuledAt s) ∧ ∀ s ∈ fc.slots, r.1.votedAt s =
          fc.votedAt s - departing es fc.latestVotes votes s + arriving es fc.latestVotes votes s))
      (o.AbortsUnless (BatchFits es fc votes)) := by
  refine ((generateUpdates_returns o es htree (updates_empty fc) votes).imp_error fun e he =>
    ⟨he.1, he.2.1, fun hfit => he.2.2 (amountsFit_empty.mpr hfit.amounts)⟩).bind fun r hr => ?_
  obtain ⟨fc₁, ops⟩ := r
  obtain ⟨hfc, hup, hgrow⟩ := hr
  obtain rfl : fc₁ = recordVotes fc votes := hfc
  have hsame := sameLinks_recordVotes fc votes
  have hup' : Updates (recordVotes fc votes) ops := ⟨hup.labelled, hup.closed⟩
  have happ : BatchFits es fc votes → Applicable (recordVotes fc votes) ops ∧
      ∀ s, amount ops .add s = arriving es fc.latestVotes votes s ∧
        amount ops .subtract s = departing es fc.latestVotes votes s := by
    intro hfit
    have hamount : ∀ s, amount ops .add s = arriving es fc.latestVotes votes s ∧
        amount ops .subtract s = departing es fc.latestVotes votes s := by
      intro s
      have h := hgrow (amountsFit_empty.mpr hfit.amounts) s
      rw [amount_empty, amount_empty, Nat.zero_add, Nat.zero_add] at h
      exact h
    refine ⟨⟨fun s => ruledAt_recordVotes (hfit.ruled s), fun s hs => ?_, fun s hs => ?_, ?_⟩,
      hamount⟩
    · rw [(hamount s).2]
      exact hfit.departing_le s hs
    · rw [(hamount s).1]
      exact hfit.arriving_lt s hs
    · have hsum : ∀ s ∈ (recordVotes fc votes).slots, (recordVotes fc votes).votedAt s -
          amount ops .subtract s + amount ops .add s = fc.votedAt s -
          departing es fc.latestVotes votes s + arriving es fc.latestVotes votes s := by
        intro s _
        rw [(hamount s).1, (hamount s).2]
        rfl
      rw [Finset.sum_congr rfl hsum]
      exact hfit.total_lt
  refine ((processUpdateOperations_returns o (htree.sameLinks hsame) hup').imp_error fun e he =>
    ⟨he.1, he.2.1, fun hfit => he.2.2 (happ hfit).1⟩).bind fun fc₂ h₂ => ?_
  obtain ⟨hsame₂, hlatest, hexact⟩ := h₂
  have htree₂ := htree.sameLinks (hsame.trans hsame₂)
  unfold bestOverallSlot
  rw [bestSlot_of_mem htree₂.root_mem]
  refine ⟨hsame.trans hsame₂, hlatest, rfl, fun hfit => ?_⟩
  obtain ⟨happ', hamount⟩ := happ hfit
  obtain ⟨hruled, hat⟩ := hexact happ'
  refine ⟨hruled, fun s hs => ?_⟩
  rw [hat s hs, (hamount s).1, (hamount s).2]
  rfl

/-! ## Sound states -/

/-- **A sound state**: a tree that obeys the rule, with at each slot at most the stake of the
validators whose latest vote it is. -/
structure Sound (table : StakeTable) (fc : HeaviestSubtreeForkChoice) : Prop where
  isTree : fc.IsTree
  ruled : ∀ s, fc.RuledAt s
  votedAt_le : ∀ s ∈ fc.slots, fc.votedAt s ≤ votesAt table.toEpochStakes fc.latestVotes s

theorem Sound.weight_eq (h : Sound table fc) (hs : s ∈ fc.slots) :
    fc.weight s = h.isTree.forest.subtreeSum fc.slots fc.votedAt s :=
  weight_eq_subtreeSum h.isTree hs fun t _ => h.ruled t

theorem Sound.batchFits (h : Sound table fc)
    (hdep : ∀ s ∈ fc.slots, departing table.toEpochStakes fc.latestVotes votes s ≤ fc.votedAt s) :
    BatchFits table.toEpochStakes fc votes where
  ruled := h.ruled
  amounts := table.amounts_fit fc.latestVotes votes
  departing_le := hdep
  arriving_lt := by
    intro s hs
    rw [h.weight_eq hs]
    exact subtreeSum_arriving_fits table h.votedAt_le votes s
  total_lt := by
    refine lt_of_le_of_lt (Finset.sum_le_sum fun s hs => ?_)
      (sum_votesAt_fits table (castVotes fc.latestVotes votes) fc.slots)
    have hconserved := castVotes_votesAt table.toEpochStakes fc.latestVotes votes s
    have hle := h.votedAt_le s hs
    have hdeps := hdep s hs
    omega

/-- **A batch in a sound state** returns if at each slot what departs is voted there. -/
theorem Sound.addVotes (h : Sound table fc) (o : Overflow) (votes : List (Pubkey × Nat))
    (hdep : ∀ s ∈ fc.slots, departing table.toEpochStakes fc.latestVotes votes s ≤ fc.votedAt s) :
    ∃ fc', fc.addVotes o votes table.toEpochStakes = .ok (fc', (fc'.entry fc'.root).bestSlot) ∧
      SameLinks fc fc' ∧ fc'.latestVotes = castVotes fc.latestVotes votes ∧ Sound table fc' ∧
      ∀ s ∈ fc.slots, fc'.votedAt s + votesAt table.toEpochStakes fc.latestVotes s =
        fc.votedAt s + votesAt table.toEpochStakes fc'.latestVotes s := by
  obtain ⟨r, hr, hsame, hlatest, hbest, hexact⟩ :=
    (addVotes_returns o table.toEpochStakes h.isTree votes).exists_ok fun e he =>
      he.2.2 (h.batchFits hdep)
  obtain ⟨fc', best⟩ := r
  simp only at hsame hlatest hbest hexact
  subst hbest
  obtain ⟨hruled, hat⟩ := hexact (h.batchFits hdep)
  have hmove : ∀ s ∈ fc.slots, fc'.votedAt s + votesAt table.toEpochStakes fc.latestVotes s =
      fc.votedAt s + votesAt table.toEpochStakes fc'.latestVotes s := by
    intro s hs
    have hconserved := castVotes_votesAt table.toEpochStakes fc.latestVotes votes s
    have hdeps := hdep s hs
    have hats := hat s hs
    rw [hlatest]
    omega
  refine ⟨fc', hr, hsame, hlatest, ⟨h.isTree.sameLinks hsame, hruled, fun s hs => ?_⟩, hmove⟩
  rw [hsame.slots] at hs
  have hle := h.votedAt_le s hs
  have hmoves := hmove s hs
  omega

/-! ## Batches that abort -/

/-- What a build with overflow checks has verified while updates are applied: a subtraction that is
done was covered by the stake voted at its slot before the batch. -/
structure Covered (fc₀ : HeaviestSubtreeForkChoice) (ops : UpdateOperations)
    (D : Nat ×ₗ UpdateLabel → Prop) (fc : HeaviestSubtreeForkChoice) : Prop where
  sameLinks : SameLinks fc₀ fc
  votedAt : ∀ s ∈ fc₀.slots, HasUpdate ops .subtract s → ¬ D (toLex (s, .subtract)) →
    fc.votedAt s = fc₀.votedAt s
  covered : ∀ s ∈ fc₀.slots, HasUpdate ops .subtract s → D (toLex (s, .subtract)) →
    amount ops .subtract s ≤ fc₀.votedAt s

section Covered

variable {fc₀ : HeaviestSubtreeForkChoice} {ops : UpdateOperations} {label : UpdateLabel}

theorem subtractSlotStake_checked (hs : s ∈ fc.slots) (stake : Nat) :
    Returns (fc.subtractSlotStake .checked s stake)
      (fun fc' => stake ≤ fc.votedAt s ∧ ∃ a w b, fc' = fc.setValues s a w b) fun _ => True := by
  have hchecked (n : Nat) : Returns (subU64 .checked n stake) (fun _ => stake ≤ n)
      fun _ => True := by
    unfold subU64
    split
    · assumption
    · trivial
  unfold subtractSlotStake
  rw [getElem?_of_mem hs]
  exact (hchecked _).bind fun a hle => (hchecked _).bind fun w _ => ⟨hle, a, w, _, rfl⟩

/-- Once the subtraction of a slot is done, the entry of the slot may be written. -/
theorem Covered.setValues (h : Covered fc₀ ops (fun k => toLex (s, label) < k) fc)
    (hs : s ∈ fc₀.slots)
    (hcovered : label = .subtract → amount ops .subtract s ≤ fc₀.votedAt s) (a w b : Nat) :
    Covered fc₀ ops (fun k => toLex (s, label) ≤ k) (fc.setValues s a w b) := by
  refine ⟨h.sameLinks.trans (sameLinks_setValues a w b (h.sameLinks.slots ▸ hs)),
    fun t ht hup hd => ?_, fun t ht hup hd => ?_⟩
  · have hts : t ≠ s := by
      rintro rfl
      refine hd (key_le_self.mpr ?_)
      cases label with
      | aggregate => decide
      | add => decide
      | subtract => decide
    rw [votedAt_setValues, if_neg hts]
    exact h.votedAt t ht hup fun hlt => hd (le_of_lt hlt)
  · by_cases heq : t = s ∧ UpdateLabel.subtract = label
    · rw [heq.1]
      exact hcovered heq.2.symm
    · exact h.covered t ht hup ((key_lt_iff_le heq).mpr hd)

theorem processUpdate_covered (htree : fc₀.IsTree) (hup : Updates fc₀ ops) {k : Nat ×ₗ UpdateLabel}
    {op : UpdateOperation} (hget : ops[k]? = some op) (h : Covered fc₀ ops (fun k' => k < k') fc) :
    Returns (fc.processUpdate .checked (k, op)) (Covered fc₀ ops fun k' => k ≤ k')
      fun _ => True := by
  obtain ⟨⟨s, label⟩, rfl⟩ := toLex.surjective k
  by_cases hs : s ∈ fc₀.slots
  swap
  · rw [processUpdate_of_not_mem .checked (h.sameLinks.slots ▸ hs)]
    have hne : ∀ t ∈ fc₀.slots, ¬ (t = s ∧ UpdateLabel.subtract = label) := by
      rintro t ht ⟨rfl, -⟩
      exact hs ht
    exact ⟨h.sameLinks, fun t ht hup hd => h.votedAt t ht hup fun hlt => hd (le_of_lt hlt),
      fun t ht hup hd => h.covered t ht hup ((key_lt_iff_le (hne t ht)).mpr hd)⟩
  have hsfc : s ∈ fc.slots := h.sameLinks.slots ▸ hs
  have hlabel := hup.labelled s label op hget
  cases op with
  | aggregate =>
    cases hlabel
    refine ((aggregateSlot_returns .checked (htree.sameLinks h.sameLinks) hsfc).imp_error
      fun _ _ => trivial).imp fun fc' hfc' => ?_
    obtain ⟨w, b, rfl, -⟩ := hfc'
    exact h.setValues hs (fun hl => by cases hl) _ w b
  | add stake =>
    cases hlabel
    change Returns (fc.addSlotStake .checked s stake) _ _
    unfold addSlotStake
    rw [getElem?_of_mem hsfc]
    refine ((addU64_returns .checked _ stake).imp_error fun _ _ => trivial).bind fun a _ => ?_
    refine ((addU64_returns .checked _ stake).imp_error fun _ _ => trivial).bind fun w _ => ?_
    exact h.setValues hs (fun hl => by cases hl) a w _
  | subtract stake =>
    cases hlabel
    refine (subtractSlotStake_checked hsfc stake).imp fun fc' hfc' => ?_
    obtain ⟨hle, a, w, b, rfl⟩ := hfc'
    refine h.setValues hs (fun _ => ?_) a w b
    have hstake : amount ops .subtract s = stake := amount_of_getElem? hget
    rw [hstake, ← h.votedAt s hs (hasUpdate_of_getElem? hget) (lt_irrefl _)]
    exact hle

theorem processUpdateOperations_covered (htree : fc₀.IsTree) (hup : Updates fc₀ ops)
    (hok : fc₀.processUpdateOperations .checked ops = .ok fc) (hs : s ∈ fc₀.slots) :
    amount ops .subtract s ≤ fc₀.votedAt s := by
  have hstart : Covered fc₀ ops (fun _ => False) fc₀ :=
    ⟨SameLinks.refl fc₀, fun _ _ _ _ => rfl, fun _ _ _ hd => hd.elim⟩
  have hrun := returns_foldlM_descending
    (fun D D' fc hD h => ⟨h.sameLinks,
      fun s hs hup hd => h.votedAt s hs hup fun hd' => hd ((hD _ hup).mp hd'),
      fun s hs hup hd => h.covered s hs hup ((hD _ hup).mpr hd)⟩) hstart
    fun k op fc hget h => processUpdate_covered htree hup hget h
  have hcovered := hrun.of_ok hok
  by_cases hhas : HasUpdate ops .subtract s
  · exact hcovered.covered s hs hhas trivial
  · rw [amount_of_not_hasUpdate hhas]
    exact Nat.zero_le _

/-- **A build with overflow checks returns only if at each slot what departs is voted there.** -/
theorem departing_le_of_addVotes (h : Sound table fc) {best : Nat}
    (hok : fc.addVotes .checked votes table.toEpochStakes = .ok (fc', best)) (hs : s ∈ fc.slots) :
    departing table.toEpochStakes fc.latestVotes votes s ≤ fc.votedAt s := by
  obtain ⟨⟨fc₁, ops⟩, hgen, hrest⟩ := bind_eq_ok.mp hok
  obtain ⟨fc₂, hprocess, -⟩ := bind_eq_ok.mp hrest
  obtain ⟨hfc, hup, hgrow⟩ :=
    (generateUpdates_returns .checked table.toEpochStakes h.isTree (updates_empty fc) votes).of_ok
      hgen
  obtain rfl : fc₁ = recordVotes fc votes := hfc
  have hfit : AmountsFit ∅ (arriving table.toEpochStakes fc.latestVotes votes)
      (departing table.toEpochStakes fc.latestVotes votes) :=
    amountsFit_empty.mpr (table.amounts_fit fc.latestVotes votes)
  have hamount := (hgrow hfit s).2
  rw [amount_empty, Nat.zero_add] at hamount
  have hcovered : amount ops .subtract s ≤ (recordVotes fc votes).votedAt s :=
    processUpdateOperations_covered (h.isTree.sameLinks (sameLinks_recordVotes fc votes))
      ⟨hup.labelled, hup.closed⟩ hprocess hs
  rw [← hamount]
  exact hcovered

end Covered

end Panoptes.ForkChoice
