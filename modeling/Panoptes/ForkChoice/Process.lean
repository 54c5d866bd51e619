import Panoptes.ForkChoice.Updates

/-!
# Applying the updates of a batch

`process_update_operations` applies the updates from the greatest key down: at each slot the
subtraction, then the addition, then the aggregation, and a slot after all greater slots.

* `aggregateSlot_returns` — an aggregation establishes the rule at a slot from its children.
* `Processed` — what holds while the updates are applied, by the set of those that are done.
* `processUpdateOperations_returns` — the updates are applied without a panic, unless a number
  overflows, and the rule holds at every slot.
-/

set_option autoImplicit false

namespace Panoptes.ForkChoice

open Lib Sdk List
open Std (ExtTreeMap)

namespace HeaviestSubtreeForkChoice

variable {fc fc' : HeaviestSubtreeForkChoice} {s t c : Nat} {l : List Nat}

/-! ## Writing an entry -/

def setValues (fc : HeaviestSubtreeForkChoice) (s votedAt weight best : Nat) :
    HeaviestSubtreeForkChoice :=
  fc.setInfo s { fc.entry s with
    stakeVotedAt := votedAt, stakeVotedSubtree := weight, bestSlot := best }

section SetValues

variable (a w b : Nat)

theorem sameLinks_setValues (hs : s ∈ fc.slots) : SameLinks fc (fc.setValues s a w b) :=
  SameLinks.setInfo hs rfl rfl

theorem entry_setValues_self :
    (fc.setValues s a w b).entry s =
      { fc.entry s with stakeVotedAt := a, stakeVotedSubtree := w, bestSlot := b } :=
  entry_setInfo_self ..

theorem entry_setValues_of_ne (h : t ≠ s) : (fc.setValues s a w b).entry t = fc.entry t :=
  entry_setInfo_of_ne _ h

theorem votedAt_setValues :
    (fc.setValues s a w b).votedAt t = if t = s then a else fc.votedAt t := by
  rw [votedAt, setValues, entry_setInfo, apply_ite ForkInfo.stakeVotedAt]
  rfl

theorem weight_setValues : (fc.setValues s a w b).weight t = if t = s then w else fc.weight t := by
  rw [weight, setValues, entry_setInfo, apply_ite ForkInfo.stakeVotedSubtree]
  rfl

theorem bestSlot_setValues : ((fc.setValues s a w b).entry t).bestSlot =
    if t = s then b else (fc.entry t).bestSlot := by
  rw [setValues, entry_setInfo, apply_ite ForkInfo.bestSlot]

/-- The rule at a slot other than `s` and its parent is not affected. -/
theorem RuledAt.setValues (h : fc.RuledAt t) (ht : t ≠ s) (hs : s ∉ (fc.entry t).children) :
    (fc.setValues s a w b).RuledAt t := by
  have hself := @entry_setValues_of_ne fc s t a w b ht
  refine h.congr (congrArg ForkInfo.stakeVotedAt hself) (congrArg ForkInfo.stakeVotedSubtree hself)
    (congrArg ForkInfo.bestSlot hself) (congrArg ForkInfo.children hself) fun c hc => ?_
  have hne : c ≠ s := fun heq => hs (heq ▸ hc)
  rw [weight_setValues, if_neg hne, bestSlot_setValues, if_neg hne]
  exact ⟨rfl, rfl⟩

end SetValues

/-! ## Aggregation -/

def Fits (fc : HeaviestSubtreeForkChoice) (s : Nat) : Prop :=
  fc.votedAt s + ((fc.entry s).children.map fc.weight).sum < U64

/-- The running values of an aggregation after some of the children. -/
structure Aggregated (fc : HeaviestSubtreeForkChoice) (s : Nat) (done : List Nat)
    (acc : Aggregate) : Prop where
  weight : fc.votedAt s + ((fc.entry s).children.map fc.weight).sum < U64 →
    acc.stakeVotedSubtree = fc.votedAt s + (done.map fc.weight).sum
  best : (done = [] ∧ acc.bestChildSlot = s ∧ acc.bestSlot = s) ∨
    (BestChild fc.weight done acc.bestChildSlot ∧
      acc.bestChildStakeVotedSubtree = fc.weight acc.bestChildSlot ∧
      acc.bestSlot = (fc.entry acc.bestChildSlot).bestSlot)

theorem BestChild.concat_of_better {w : Nat → Nat} {b : Nat} (h : BestChild w l b)
    (hc : w c > w b ∨ (w c = w b ∧ c < b)) : BestChild w (l ++ [c]) c := by
  refine ⟨by simp, forall_mem_concat.mpr ⟨fun c' hc' => ?_, .inr ⟨rfl, le_refl c⟩⟩⟩
  have := h.2 c' hc'
  omega

theorem BestChild.concat_of_not_better {w : Nat → Nat} {b : Nat} (h : BestChild w l b)
    (hc : ¬ (w c > w b ∨ (w c = w b ∧ c < b))) : BestChild w (l ++ [c]) b := by
  refine ⟨mem_append_left _ h.1, forall_mem_concat.mpr ⟨h.2, ?_⟩⟩
  omega

/-- One child: the best child so far is replaced if the new one is better, or the first. -/
theorem aggregateChild_returns (o : Overflow) (htree : fc.IsTree) {done post : List Nat}
    {acc : Aggregate}
    (hchildren : (fc.entry s).children = done ++ c :: post) (h : Aggregated fc s done acc) :
    Returns (fc.aggregateChild o s acc c) (Aggregated fc s (done ++ [c]))
      (o.AbortsUnless (fc.Fits s)) := by
  have hmem : ∀ c' ∈ done ++ [c], c' ∈ (fc.entry s).children := by
    rw [hchildren]
    exact forall_mem_concat.mpr ⟨fun _ => mem_append_left _, mem_append_right _ (mem_cons_self ..)⟩
  have hslot := htree.child_lt (hmem c (by simp))
  have hsum : ((fc.entry s).children.map fc.weight).sum =
      (done.map fc.weight).sum + (fc.weight c + (post.map fc.weight).sum) := by
    rw [hchildren, map_append, sum_append, map_cons, sum_cons]
  have hdone : ((done ++ [c]).map fc.weight).sum = (done.map fc.weight).sum + fc.weight c := by
    simp
  -- the total so far, whichever child is the best
  have htotal : Returns (addU64 o acc.stakeVotedSubtree (fc.weight c))
      (fun total => fc.Fits s →
        total = fc.votedAt s + ((done ++ [c]).map fc.weight).sum)
      (o.AbortsUnless (fc.Fits s)) := by
    refine ((addU64_returns o _ _).imp fun total htotal hfit => ?_).imp_error fun e he => ?_
    · have hacc := h.weight hfit
      rw [Fits] at hfit
      omega
    · refine ⟨he.1, he.2.1, fun hfit => he.2.2 ?_⟩
      have hacc := h.weight hfit
      rw [Fits] at hfit
      omega
  unfold aggregateChild
  rw [stakeVotedSubtree_of_mem hslot.2.1]
  refine htotal.bind fun total htotal => ?_
  by_cases hbetter : acc.bestChildSlot = s ∨ fc.weight c > acc.bestChildStakeVotedSubtree ∨
      (fc.weight c = acc.bestChildStakeVotedSubtree ∧ c < acc.bestChildSlot)
  · rw [if_pos hbetter, bestSlot_of_mem hslot.2.1]
    refine ⟨htotal, .inr ⟨?_, rfl, rfl⟩⟩
    rcases h.best with ⟨hnil, -⟩ | ⟨hbest, hstake, -⟩
    · rw [hnil]
      exact ⟨by simp, by simp⟩
    · refine hbest.concat_of_better ?_
      have hne : acc.bestChildSlot ≠ s :=
        (htree.child_lt (hmem _ (mem_append_left _ hbest.1))).1.ne'
      omega
  · rw [if_neg hbetter]
    refine ⟨htotal, .inr ?_⟩
    push Not at hbetter
    rcases h.best with ⟨-, hself, -⟩ | ⟨hbest, hstake, hslot⟩
    · exact absurd hself hbetter.1
    · refine ⟨hbest.concat_of_not_better ?_, hstake, hslot⟩
      omega

/-- **An aggregation** writes the weight and the best slot of its slot, so that the rule holds
there. -/
theorem aggregateSlot_returns (o : Overflow) (htree : fc.IsTree) (hs : s ∈ fc.slots) :
    Returns (fc.aggregateSlot o s)
      (fun fc' => ∃ w best, fc' = fc.setValues s (fc.votedAt s) w best ∧
        (fc.Fits s → fc'.RuledAt s))
      (o.AbortsUnless (fc.Fits s)) := by
  unfold aggregateSlot
  rw [getElem?_of_mem hs]
  have hloop := Returns.foldlM
    (fc.entry s).children [] (s := ⟨(fc.entry s).stakeVotedAt, 0, s, s⟩)
    ⟨fun _ => by simp [votedAt], .inl ⟨rfl, rfl, rfl⟩⟩
    fun pre c post acc hsplit hacc => aggregateChild_returns o htree hsplit hacc
  rw [nil_append] at hloop
  refine hloop.bind fun acc hacc => ?_
  refine ⟨acc.stakeVotedSubtree, acc.bestSlot, rfl, fun hfit => ?_⟩
  show (fc.setValues s (fc.votedAt s) acc.stakeVotedSubtree acc.bestSlot).RuledAt s
  have hne : ∀ c ∈ (fc.entry s).children, c ≠ s := fun c hc => (htree.child_lt hc).1.ne'
  have hweights : ∀ c ∈ (fc.entry s).children,
      (fc.setValues s (fc.votedAt s) acc.stakeVotedSubtree acc.bestSlot).weight c =
        fc.weight c := by
    intro c hc
    rw [weight_setValues, if_neg (hne c hc)]
  refine ⟨?_, ?_⟩
  · rw [weight_setValues, if_pos rfl, votedAt_setValues, if_pos rfl, entry_setValues_self,
      map_congr_left hweights, hacc.weight hfit]
  · unfold BestAt
    rw [entry_setValues_self]
    rcases hacc.best with ⟨hnil, -, hbest⟩ | ⟨hbest, -, hslot⟩
    · exact .inl ⟨hnil, hbest⟩
    · refine .inr ⟨acc.bestChildSlot, hbest.congr hweights, ?_⟩
      rw [bestSlot_setValues, if_neg (hne _ hbest.1)]
      exact hslot.symm

theorem processUpdate_of_not_mem (o : Overflow) (hs : s ∉ fc.slots) (label : UpdateLabel)
    (op : UpdateOperation) : fc.processUpdate o (toLex (s, label), op) = .ok fc := by
  have hnone := getElem?_of_not_mem hs
  cases op with
  | aggregate =>
    show fc.aggregateSlot o s = .ok fc
    unfold aggregateSlot
    rw [hnone]
  | add stake =>
    show fc.addSlotStake o s stake = .ok fc
    unfold addSlotStake
    rw [hnone]
  | subtract stake =>
    show fc.subtractSlotStake o s stake = .ok fc
    unfold subtractSlotStake
    rw [hnone]

end HeaviestSubtreeForkChoice

/-! ## A batch -/

section Batch

open HeaviestSubtreeForkChoice Classical

variable {fc₀ fc : HeaviestSubtreeForkChoice} {ops : UpdateOperations}
  {D D' : Nat ×ₗ UpdateLabel → Prop} {s t a w b stake : Nat} {label label' : UpdateLabel}

section

variable (fc₀ : HeaviestSubtreeForkChoice) (ops : UpdateOperations) (D : Nat ×ₗ UpdateLabel → Prop)

/-- The updates can be applied to a state that obeys the rule without an overflow. -/
structure Applicable : Prop where
  ruled : ∀ s, fc₀.RuledAt s
  sub_le : ∀ s ∈ fc₀.slots, amount ops .subtract s ≤ fc₀.votedAt s
  add_lt : ∀ s ∈ fc₀.slots, fc₀.weight s + amount ops .add s < U64
  total_lt : ∑ s ∈ fc₀.slots, (fc₀.votedAt s - amount ops .subtract s + amount ops .add s) < U64

noncomputable def amountDone (label : UpdateLabel) (s : Nat) : Nat :=
  if D (toLex (s, label)) then amount ops label s else 0

/-- **The state while updates are applied**, those of the keys in `D` being done: a slot that has
been aggregated obeys the rule, and another has its weight changed with the stake voted at it. -/
structure Processed (fc : HeaviestSubtreeForkChoice) : Prop where
  votedAt : ∀ s ∈ fc₀.slots, fc.votedAt s =
    fc₀.votedAt s - amountDone ops D .subtract s + amountDone ops D .add s
  waiting : ∀ s ∈ fc₀.slots, (HasUpdate ops .aggregate s → ¬ D (toLex (s, .aggregate))) →
    fc.weight s + fc₀.votedAt s = fc₀.weight s + fc.votedAt s ∧
      (fc.entry s).bestSlot = (fc₀.entry s).bestSlot
  done : ∀ s ∈ fc₀.slots, HasUpdate ops .aggregate s → D (toLex (s, .aggregate)) → fc.RuledAt s

end

theorem amount_of_not_hasUpdate (h : ¬ HasUpdate ops label s) : amount ops label s = 0 := by
  unfold amount
  rw [not_not.mp h]
  rfl

theorem amountDone_of_not_hasUpdate (h : ¬ HasUpdate ops label s) :
    amountDone ops D label s = 0 := by
  unfold amountDone
  rw [amount_of_not_hasUpdate h, ite_self]

theorem amountDone_congr
    (h : HasUpdate ops label s → (D (toLex (s, label)) ↔ D' (toLex (s, label)))) :
    amountDone ops D label s = amountDone ops D' label s := by
  by_cases hup : HasUpdate ops label s
  · unfold amountDone
    rw [if_congr (h hup) rfl rfl]
  · rw [amountDone_of_not_hasUpdate hup, amountDone_of_not_hasUpdate hup]

/-- Only the keys of updates matter. -/
theorem Processed.congr (h : Processed fc₀ ops D fc) (hD : ∀ s ∈ fc₀.slots, ∀ label,
    HasUpdate ops label s → (D (toLex (s, label)) ↔ D' (toLex (s, label)))) :
    Processed fc₀ ops D' fc where
  votedAt := by
    intro s hs
    rw [h.votedAt s hs, amountDone_congr (hD s hs _), amountDone_congr (hD s hs _)]
  waiting := by
    intro s hs hwait
    exact h.waiting s hs fun hup hd => hwait hup ((hD s hs _ hup).mp hd)
  done := by
    intro s hs hup hd
    exact h.done s hs hup ((hD s hs _ hup).mpr hd)

/-- A slot without an aggregation has no child with an update, so that the rule holds there as
well. -/
theorem Processed.ruledAt (h : Processed fc₀ ops D fc) (hsame : SameLinks fc₀ fc)
    (htree : fc₀.IsTree) (hup : Updates fc₀ ops) (happ : Applicable fc₀ ops) (t : Nat)
    (hdone : HasUpdate ops .aggregate t → D (toLex (t, .aggregate))) : fc.RuledAt t := by
  by_cases ht : t ∈ fc₀.slots
  swap
  · exact ruledAt_of_not_mem (hsame.slots ▸ ht)
  by_cases hagg : HasUpdate ops .aggregate t
  · exact h.done t ht hagg (hdone hagg)
  obtain ⟨hweight, hbest⟩ := h.waiting t ht fun hup => absurd hup hagg
  have hchild : ∀ c ∈ (fc₀.entry t).children,
      fc.weight c = fc₀.weight c ∧ (fc.entry c).bestSlot = (fc₀.entry c).bestSlot := by
    intro c hc
    have hnone : ∀ label, ¬ HasUpdate ops label c := fun label hc' =>
      hagg (hup.closed c label hc' (by simp) t ((htree.mem_children t c).mp hc))
    have hmem := (htree.child_lt hc).2.1
    obtain ⟨hw, hb⟩ := h.waiting c hmem fun hup => absurd hup (hnone _)
    have hat := h.votedAt c hmem
    rw [amountDone_of_not_hasUpdate (hnone _), amountDone_of_not_hasUpdate (hnone _)] at hat
    exact ⟨by omega, hb⟩
  refine ⟨?_, (happ.ruled t).best.congr (hsame.children t) hbest hchild⟩
  have hrule := (happ.ruled t).weight
  rw [hsame.children, map_congr_left fun c hc => (hchild c hc).1]
  omega

/-! ### One update -/

theorem key_lt_iff_le (h : ¬ (t = s ∧ label' = label)) :
    toLex (s, label) < toLex (t, label') ↔ toLex (s, label) ≤ toLex (t, label') := by
  rw [le_iff_lt_or_eq, or_iff_left]
  intro heq
  rw [toLex_inj, Prod.mk.injEq] at heq
  exact h ⟨heq.1.symm, heq.2.symm⟩

theorem key_lt_self : toLex (s, label) < toLex (s, label') ↔ label < label' := by
  rw [Prod.Lex.toLex_lt_toLex]
  simp

theorem key_le_self : toLex (s, label) ≤ toLex (s, label') ↔ label ≤ label' := by
  rw [Prod.Lex.toLex_le_toLex]
  simp

theorem lt_of_key_le (h : toLex (s, label) ≤ toLex (t, label')) (hne : t ≠ s) : s < t := by
  rw [Prod.Lex.toLex_le_toLex] at h
  rcases h with h | h
  · exact h
  · exact absurd h.1.symm hne

theorem Processed.setValues (h : Processed fc₀ ops (fun k => toLex (s, label) < k) fc)
    (hsame : SameLinks fc₀ fc) (htree : fc₀.IsTree)
    (hat : a = fc₀.votedAt s - amountDone ops (fun k => toLex (s, label) ≤ k) .subtract s +
      amountDone ops (fun k => toLex (s, label) ≤ k) .add s) (hwait : label ≠ .aggregate →
      w + fc₀.votedAt s = fc₀.weight s + a ∧ b = (fc₀.entry s).bestSlot)
    (hdone : label = .aggregate → (fc.setValues s a w b).RuledAt s) (hup : HasUpdate ops label s) :
    Processed fc₀ ops (fun k => toLex (s, label) ≤ k) (fc.setValues s a w b) := by
  have hle : ∀ t, t ≠ s → ∀ label', HasUpdate ops label' t →
      (toLex (s, label) < toLex (t, label') ↔ toLex (s, label) ≤ toLex (t, label')) :=
    fun t ht label' _ => key_lt_iff_le fun heq => ht heq.1
  have hbottom : toLex (s, label) ≤ toLex (s, UpdateLabel.aggregate) ↔ label = .aggregate := by
    rw [key_le_self]
    cases label with
    | aggregate => decide
    | add => decide
    | subtract => decide
  refine ⟨fun t ht => ?_, fun t ht hnot => ?_, fun t ht hagg hd => ?_⟩
  · rw [votedAt_setValues]
    by_cases hts : t = s
    · rw [if_pos hts, hts]
      exact hat
    · rw [if_neg hts, h.votedAt t ht, amountDone_congr (hle t hts _),
        amountDone_congr (hle t hts _)]
  · rw [weight_setValues, votedAt_setValues, bestSlot_setValues]
    by_cases hts : t = s
    · rw [if_pos hts, if_pos hts, if_pos hts, hts]
      refine hwait fun hlabel => ?_
      rw [hts, hbottom] at hnot
      exact hnot (hlabel ▸ hup) hlabel
    · rw [if_neg hts, if_neg hts, if_neg hts]
      exact h.waiting t ht fun hagg hlt => hnot hagg ((hle t hts _ hagg).mp hlt)
  · by_cases hts : t = s
    · rw [hts, hbottom] at hd
      rw [hts]
      exact hdone hd
    · refine (h.done t ht hagg ((hle t hts _ hagg).mpr hd)).setValues a w b hts fun hmem => ?_
      -- the children of a slot that was aggregated are greater slots, which are done
      rw [hsame.children] at hmem
      have hchild := (htree.child_lt hmem).1
      have hlt := lt_of_key_le hd hts
      omega

section

variable (ops : UpdateOperations) (s : Nat) (label label' : UpdateLabel)

theorem amountDone_le :
    amountDone ops (fun k => toLex (s, label) ≤ k) label' s =
      if label ≤ label' then amount ops label' s else 0 := by
  unfold amountDone
  by_cases h : label ≤ label'
  · rw [if_pos h, if_pos (key_le_self.mpr h)]
  · rw [if_neg h, if_neg (mt key_le_self.mp h)]

theorem amountDone_lt :
    amountDone ops (fun k => toLex (s, label) < k) label' s =
      if label < label' then amount ops label' s else 0 := by
  unfold amountDone
  by_cases h : label < label'
  · rw [if_pos h, if_pos (key_lt_self.mpr h)]
  · rw [if_neg h, if_neg (mt key_lt_self.mp h)]

end

section

variable (fc₀ : HeaviestSubtreeForkChoice) (ops : UpdateOperations)

/-- What holds while the updates are applied: the links are those of `fc₀`, and the numbers are
right if the updates are applicable. -/
def Applying (D : Nat ×ₗ UpdateLabel → Prop) (fc : HeaviestSubtreeForkChoice) : Prop :=
  SameLinks fc₀ fc ∧ fc.latestVotes = fc₀.latestVotes ∧
    (Applicable fc₀ ops → Processed fc₀ ops D fc)

/-- The abort of an application: an overflow, in a build that checks for it. -/
def OverflowOf (o : Overflow) (e : Panic) :
    Prop :=
  e = .overflow ∧ o = .checked ∧ ¬ Applicable fc₀ ops

end

theorem Applying.setValues (h : Applying fc₀ ops (fun k => toLex (s, label) < k) fc)
    (hs : s ∈ fc₀.slots) (hvalues : Applicable fc₀ ops →
      Processed fc₀ ops (fun k => toLex (s, label) ≤ k) (fc.setValues s a w b)) :
    Applying fc₀ ops (fun k => toLex (s, label) ≤ k) (fc.setValues s a w b) :=
  ⟨h.1.trans (sameLinks_setValues a w b (h.1.slots ▸ hs)), h.2.1, hvalues⟩

section

variable (o : Overflow) (htree : fc₀.IsTree)
include htree

/-- A stake is added or subtracted at a slot. -/
theorem stake_returns {f : Nat → Except Panic Nat} {p : Nat → Prop} {g : Nat → Nat}
    (hf : ∀ n, Returns (f n) (fun c => p n → c = g n) (o.AbortsUnless (p n))) (hs : s ∈ fc₀.slots)
    (hup : HasUpdate ops label s) (hlabel : label ≠ .aggregate)
    (h : Applying fc₀ ops (fun k => toLex (s, label) < k) fc)
    (hvalues : Applicable fc₀ ops → p (fc.votedAt s) ∧ p (fc.weight s) ∧
      g (fc.votedAt s) = fc₀.votedAt s - amountDone ops
        (fun k => toLex (s, label) ≤ k) .subtract s +
        amountDone ops (fun k => toLex (s, label) ≤ k) .add s ∧
      g (fc.weight s) + fc₀.votedAt s = fc₀.weight s + g (fc.votedAt s)) :
    Returns (do
      let stakeVotedAt ← f (fc.votedAt s)
      let stakeVotedSubtree ← f (fc.weight s)
      .ok (fc.setInfo s { fc.entry s with stakeVotedAt, stakeVotedSubtree }))
      (Applying fc₀ ops fun k => toLex (s, label) ≤ k) (OverflowOf fc₀ ops o) := by
  refine ((hf _).imp_error fun e he => ⟨he.1, he.2.1, fun happ => he.2.2 (hvalues happ).1⟩).bind
    fun a ha => ?_
  refine ((hf _).imp_error fun e he => ⟨he.1, he.2.1, fun happ => he.2.2 (hvalues happ).2.1⟩).bind
    fun w hw => ?_
  refine h.setValues hs fun happ => ?_
  obtain ⟨hat, hweight, ha', hw'⟩ := hvalues happ
  refine (h.2.2 happ).setValues h.1 htree ((ha hat).trans ha') (fun _ => ⟨?_, ?_⟩)
    (fun hl => absurd hl hlabel) hup
  · rw [ha hat, hw hweight]
    exact hw'
  · exact ((h.2.2 happ).waiting s hs fun _ => key_lt_self.not.mpr (by cases label <;> decide)).2

/-- A subtraction is the first update of its slot. -/
theorem subtract_returns (hs : s ∈ fc₀.slots)
    (hget : ops[toLex (s, UpdateLabel.subtract)]? = some (.subtract stake))
    (h : Applying fc₀ ops (fun k => toLex (s, .subtract) < k) fc) :
    Returns (fc.subtractSlotStake o s stake) (Applying fc₀ ops fun k => toLex (s, .subtract) ≤ k)
      (OverflowOf fc₀ ops o) := by
  have hstake : amount ops .subtract s = stake := amount_of_getElem? hget
  unfold subtractSlotStake
  rw [HeaviestSubtreeForkChoice.getElem?_of_mem (h.1.slots ▸ hs)]
  refine stake_returns o htree (subU64_returns o · stake) hs (hasUpdate_of_getElem? hget)
    (by decide) h fun happ => ?_
  have hat := (h.2.2 happ).votedAt s hs
  rw [amountDone_lt, amountDone_lt, if_neg (by decide), if_neg (by decide)] at hat
  have hw := ((h.2.2 happ).waiting s hs fun _ => key_lt_self.not.mpr (by decide)).1
  have hle := happ.sub_le s hs
  have hrule := (happ.ruled s).weight
  rw [amountDone_le, amountDone_le, if_pos (le_refl _), if_neg (by decide)]
  refine ⟨?_, ?_, ?_, ?_⟩ <;> omega

/-- An addition comes after the subtraction of its slot. -/
theorem add_returns (hs : s ∈ fc₀.slots)
    (hget : ops[toLex (s, UpdateLabel.add)]? = some (.add stake))
    (h : Applying fc₀ ops (fun k => toLex (s, .add) < k) fc) :
    Returns (fc.addSlotStake o s stake) (Applying fc₀ ops fun k => toLex (s, .add) ≤ k)
      (OverflowOf fc₀ ops o) := by
  have hstake : amount ops .add s = stake := amount_of_getElem? hget
  unfold addSlotStake
  rw [HeaviestSubtreeForkChoice.getElem?_of_mem (h.1.slots ▸ hs)]
  refine stake_returns o htree (addU64_returns o · stake) hs (hasUpdate_of_getElem? hget)
    (by decide) h fun happ => ?_
  have hat := (h.2.2 happ).votedAt s hs
  rw [amountDone_lt, amountDone_lt, if_pos (by decide), if_neg (by decide)] at hat
  have hw := ((h.2.2 happ).waiting s hs fun _ => key_lt_self.not.mpr (by decide)).1
  have hlt := happ.add_lt s hs
  have hrule := (happ.ruled s).weight
  rw [amountDone_le, amountDone_le, if_pos (by decide), if_pos (le_refl _)]
  refine ⟨?_, ?_, ?_, ?_⟩ <;> omega

/-- An aggregation comes after every update of its slot and of greater slots. -/
theorem aggregate_returns (hup : Updates fc₀ ops)
    (hs : s ∈ fc₀.slots) (hget : ops[toLex (s, UpdateLabel.aggregate)]? = some .aggregate)
    (h : Applying fc₀ ops (fun k => toLex (s, .aggregate) < k) fc) :
    Returns (fc.aggregateSlot o s) (Applying fc₀ ops fun k => toLex (s, .aggregate) ≤ k)
      (OverflowOf fc₀ ops o) := by
  have htree' := htree.sameLinks h.1
  have hsfc : s ∈ fc.slots := h.1.slots ▸ hs
  have hagg : HasUpdate ops .aggregate s := hasUpdate_of_getElem? hget
  have hfit : Applicable fc₀ ops → fc.Fits s := by
    intro happ
    have hp := h.2.2 happ
    -- greater slots are done, so that the weights of the children are the stakes voted in their
    -- subtrees
    have hrule : ∀ t, s < t → fc.RuledAt t := fun t hlt =>
      hp.ruledAt h.1 htree hup happ t fun _ => Prod.Lex.toLex_lt_toLex.mpr (.inl hlt)
    have hweights : ∀ c ∈ (fc.entry s).children,
        fc.weight c = htree'.forest.subtreeSum fc.slots fc.votedAt c := by
      intro c hc
      obtain ⟨hlt, hmem, -⟩ := htree'.child_lt hc
      exact weight_eq_subtreeSum htree' hmem fun t ht => hrule t (hlt.trans_le ht.le)
    have hdone : ∀ t ∈ fc.slots, htree'.forest.Below s t → fc.votedAt t =
        fc₀.votedAt t - amount ops .subtract t + amount ops .add t := by
      intro t ht hbelow
      rw [hp.votedAt t (h.1.slots ▸ ht)]
      have hd : ∀ label, label ≠ .aggregate →
          amountDone ops (fun k => toLex (s, .aggregate) < k) label t = amount ops label t := by
        intro label hlabel
        unfold amountDone
        rw [if_pos]
        rcases eq_or_lt_of_le hbelow.le with rfl | hlt
        · refine key_lt_self.mpr ?_
          cases label with
          | aggregate => exact absurd rfl hlabel
          | add => decide
          | subtract => decide
        · exact Prod.Lex.toLex_lt_toLex.mpr (.inl hlt)
      rw [hd _ (by decide), hd _ (by decide)]
    rw [Fits, map_congr_left hweights, ← Forest.subtreeSum_eq hsfc (htree'.nodup s)
      fun c => (htree'.mem_children s c).symm, Forest.subtreeSum_congr hdone]
    refine Forest.subtreeSum_le.trans_lt ?_
    rw [h.1.slots]
    exact happ.total_lt
  refine ((aggregateSlot_returns o htree' hsfc).imp_error fun e he => ?_).imp fun fc' hfc' => ?_
  · exact ⟨he.1, he.2.1, fun happ => he.2.2 (hfit happ)⟩
  · obtain ⟨w, best, rfl, hruled⟩ := hfc'
    refine h.setValues hs fun happ => ?_
    refine (h.2.2 happ).setValues h.1 htree ?_ (fun hl => absurd rfl hl)
      (fun _ => hruled (hfit happ)) hagg
    rw [(h.2.2 happ).votedAt s hs, amountDone_lt, amountDone_lt, amountDone_le, amountDone_le,
      if_pos (by decide), if_pos (by decide), if_pos (by decide), if_pos (by decide)]

/-- **One update**, all updates of greater keys being done. -/
theorem processUpdate_returns (hup : Updates fc₀ ops)
    {k : Nat ×ₗ UpdateLabel} {op : UpdateOperation} (hget : ops[k]? = some op)
    (h : Applying fc₀ ops (fun k' => k < k') fc) :
    Returns (fc.processUpdate o (k, op)) (Applying fc₀ ops fun k' => k ≤ k')
      (OverflowOf fc₀ ops o) := by
  obtain ⟨⟨s, label⟩, rfl⟩ := toLex.surjective k
  by_cases hs : s ∈ fc₀.slots
  swap
  · rw [processUpdate_of_not_mem o (h.1.slots ▸ hs)]
    refine ⟨h.1, h.2.1, fun happ => (h.2.2 happ).congr fun t ht label' _ => key_lt_iff_le ?_⟩
    rintro ⟨rfl, -⟩
    exact hs ht
  have hlabel := hup.labelled s label op hget
  cases op with
  | aggregate =>
    cases hlabel
    exact aggregate_returns o htree hup hs hget h
  | add stake =>
    cases hlabel
    exact add_returns o htree hs hget h
  | subtract stake =>
    cases hlabel
    exact subtract_returns o htree hs hget h

/-- **The updates of a batch** are applied without a panic, unless a number overflows; the rule then
holds at every slot, and the stakes voted at the slots have changed by the amounts. -/
theorem processUpdateOperations_returns (hup : Updates fc₀ ops) :
    Returns (fc₀.processUpdateOperations o ops)
      (fun fc => SameLinks fc₀ fc ∧ fc.latestVotes = fc₀.latestVotes ∧
        (Applicable fc₀ ops → (∀ s, fc.RuledAt s) ∧ ∀ s ∈ fc₀.slots,
          fc.votedAt s = fc₀.votedAt s - amount ops .subtract s + amount ops .add s))
      (OverflowOf fc₀ ops o) := by
  have hstart : Applying fc₀ ops (fun _ => False) fc₀ := by
    refine ⟨SameLinks.refl fc₀, rfl, fun _ => ⟨fun s _ => ?_, fun s _ _ => ⟨rfl, rfl⟩, ?_⟩⟩
    · unfold amountDone
      rw [if_neg id, if_neg id]
      rfl
    · exact fun s _ _ hd => hd.elim
  refine (returns_foldlM_descending (fun D D' fc hD h => ?_) hstart
    fun k op fc hget h => processUpdate_returns o htree hup hget h).imp fun fc h => ?_
  · exact ⟨h.1, h.2.1, fun happ => (h.2.2 happ).congr fun s _ label hhas => hD _ hhas⟩
  · refine ⟨h.1, h.2.1, fun happ => ⟨fun s => ?_, fun s hs => ?_⟩⟩
    · exact (h.2.2 happ).ruledAt h.1 htree hup happ s fun _ => trivial
    · rw [(h.2.2 happ).votedAt s hs]
      unfold amountDone
      rw [if_pos trivial, if_pos trivial]

end

end Batch

end Panoptes.ForkChoice
