import Panoptes.Runtime.RentRanges

/-!
# Coverage of variable cycles

A cycle is an epoch, or the epochs that fit in two days.  As with fixed cycles each slot of a cycle
has its block of keys, and the banks of a chain collect rent from the blocks of the slots they stand
for.  Two banks do not, in an epoch that is not the first of its cycle: one that leaves such an
epoch from its first slot fails an assertion, and one that enters it in its second slot leaves the
block of the first slot out.

* `cycleStart` — the first epoch of a cycle.
* `covers_slotRange` — the partition of slots of an epoch by the slots of the cycle.
* `visits_of_spans`, `le_of_visits` — the slots whose blocks a bank visits.

Principal result: `variableCycle_visits_iff`.
-/

set_option autoImplicit false

namespace Panoptes.Runtime

open Lib Sdk EpochSchedule BankChain

namespace RentCycle

variable {c : RentCycle} {t : Nat} {r : Nat × Partition} {chain : BankChain} {bank : Nat × Nat}

/-- The epochs of the bank and of its parent. -/
abbrev epoch (c : RentCycle) : Nat := c.epochSchedule.getEpoch c.slot

abbrev parentEpoch (c : RentCycle) : Nat := c.epochSchedule.getEpoch c.parentSlot

/-! ## Slots of a cycle -/

variable {epoch i : Nat}

/-- The first epoch of the cycle of an epoch. -/
def cycleStart (c : RentCycle) (epoch : Nat) : Nat :=
  if c.useMultiEpochCollectionCycle epoch then
    let n := c.slotCountInTwoDay / c.epochSchedule.slotsPerEpoch
    c.epochSchedule.firstNormalEpoch + (epoch - c.epochSchedule.firstNormalEpoch) / n * n
  else epoch

def firstSlotOfCycle (c : RentCycle) (epoch : Nat) : Nat :=
  c.epochSchedule.getFirstSlotInEpoch (c.cycleStart epoch)

theorem firstSlotOfCycle_add (hwf : c.epochSchedule.WellFormed) (epoch : Nat) :
    c.firstSlotOfCycle epoch + c.baseIndex epoch = c.epochSchedule.getFirstSlotInEpoch epoch := by
  unfold firstSlotOfCycle cycleStart
  cases h : c.useMultiEpochCollectionCycle epoch with
  | false => simp [baseIndex_of_single h]
  | true =>
    have hle := firstNormalEpoch_le_of_multi h
    obtain ⟨k, rfl⟩ : ∃ k, epoch = c.epochSchedule.firstNormalEpoch + k :=
      ⟨_, (Nat.add_sub_cancel' hle).symm⟩
    have hdiv := Nat.div_add_mod k (c.slotCountInTwoDay / c.epochSchedule.slotsPerEpoch)
    rw [if_pos rfl, baseIndex_of_multi h, Nat.add_sub_cancel_left, firstSlot_add hwf,
      firstSlot_add hwf]
    calc _ = (k / (c.slotCountInTwoDay / c.epochSchedule.slotsPerEpoch)
            * (c.slotCountInTwoDay / c.epochSchedule.slotsPerEpoch)
          + k % (c.slotCountInTwoDay / c.epochSchedule.slotsPerEpoch)) *
            c.epochSchedule.slotsPerEpoch
          + c.epochSchedule.firstNormalSlot := by ring
      _ = k * c.epochSchedule.slotsPerEpoch + c.epochSchedule.firstNormalSlot := by
          rw [Nat.mul_comm (k / _), hdiv]

theorem useMulti_iff : c.useMultiEpochCollectionCycle epoch = true ↔
    c.epochSchedule.firstNormalEpoch ≤ epoch ∧ c.epochSchedule.slotsPerEpoch <
      c.slotCountInTwoDay := by
  simp [useMultiEpochCollectionCycle, slotCountPerNormalEpoch, slotsPerNormalEpoch]

/-- The number of epochs in a cycle of several epochs. -/
def epochsPerCycle (c : RentCycle) : Nat := c.slotCountInTwoDay / c.epochSchedule.slotsPerEpoch

theorem cycleStart_add {q j : Nat} (hmode : c.epochSchedule.slotsPerEpoch < c.slotCountInTwoDay)
    (hj : j < c.epochsPerCycle) :
    c.cycleStart (c.epochSchedule.firstNormalEpoch + (q * c.epochsPerCycle + j))
      = c.epochSchedule.firstNormalEpoch + q * c.epochsPerCycle := by
  rw [cycleStart, if_pos (useMulti_iff.mpr ⟨Nat.le_add_right _ _, hmode⟩), Nat.add_sub_cancel_left]
  change _ + (q * c.epochsPerCycle + j) / c.epochsPerCycle * c.epochsPerCycle = _
  rw [Nat.mul_comm q, Nat.mul_add_div (by omega), Nat.div_eq_of_lt hj, Nat.add_zero, Nat.mul_comm q]

/-- The slots from the first one of a cycle on are in the cycle. -/
theorem cycleStart_getEpoch (hwf : c.epochSchedule.WellFormed) (hi : i < c.partitionCount epoch) :
    c.cycleStart (c.epochSchedule.getEpoch (c.firstSlotOfCycle epoch + i)) =
      c.cycleStart epoch := by
  cases h : c.useMultiEpochCollectionCycle epoch with
  | false =>
    have hstart : c.cycleStart epoch = epoch := by simp [cycleStart, h]
    have hepoch : c.epochSchedule.getEpoch (c.firstSlotOfCycle epoch + i) = epoch := by
      rw [partitionCount, params_of_single h] at hi
      rw [firstSlotOfCycle, hstart]
      exact getEpoch_eq hwf (Nat.le_add_right _ _) (Nat.add_lt_add_left hi _)
    rw [hepoch]
  | true =>
    obtain ⟨hle, hlt⟩ := useMulti_iff.mp h
    have hpos := c.epochSchedule.pos
    rw [partitionCount, params_of_multi h] at hi
    obtain ⟨q, hq⟩ : ∃ q, c.cycleStart epoch =
      c.epochSchedule.firstNormalEpoch + q * c.epochsPerCycle :=
      ⟨_, by rw [cycleStart, if_pos h]; rfl⟩
    -- The slot is in the epoch of the cycle that its index is in.
    have hj : i / c.epochSchedule.slotsPerEpoch < c.epochsPerCycle := by
      rw [Nat.div_lt_iff_lt_mul hpos, Nat.mul_comm]
      exact hi
    have hdiv := Nat.div_add_mod i c.epochSchedule.slotsPerEpoch
    have hmod := Nat.mod_lt i hpos
    have hfirst : c.firstSlotOfCycle epoch + i
        = c.epochSchedule.getFirstSlotInEpoch (c.epochSchedule.firstNormalEpoch
            + (q * c.epochsPerCycle + i / c.epochSchedule.slotsPerEpoch))
          + i % c.epochSchedule.slotsPerEpoch := by
      rw [firstSlotOfCycle, hq, firstSlot_add hwf, firstSlot_add hwf, Nat.add_mul]
      rw [Nat.mul_comm c.epochSchedule.slotsPerEpoch] at hdiv
      omega
    have hepoch : c.epochSchedule.getEpoch (c.firstSlotOfCycle epoch + i)
        = c.epochSchedule.firstNormalEpoch +
          (q * c.epochsPerCycle + i / c.epochSchedule.slotsPerEpoch) := by
      rw [hfirst]
      refine getEpoch_eq hwf (Nat.le_add_right _ _) (Nat.add_lt_add_left ?_ _)
      rw [getSlotsInEpoch_of_normal (Nat.le_add_right _ _)]
      exact hmod
    rw [hepoch, cycleStart_add hlt hj, hq]

theorem partitionCount_congr {epoch' : Nat} (h : c.cycleStart epoch = c.cycleStart epoch') :
    c.partitionCount epoch = c.partitionCount epoch' := by
  unfold cycleStart at h
  cases hm : c.useMultiEpochCollectionCycle epoch with
  | false =>
    cases hm' : c.useMultiEpochCollectionCycle epoch' with
    | false =>
      rw [hm, hm'] at h
      rw [show epoch = epoch' by simpa using h]
    | true =>
      -- An epoch before the normal ones is in no cycle of several epochs.
      rw [hm', if_pos rfl] at h
      exact absurd (useMulti_iff.mpr ⟨h ▸ Nat.le_add_right _ _, (useMulti_iff.mp hm').2⟩)
        (by simp [hm])
  | true =>
    cases hm' : c.useMultiEpochCollectionCycle epoch' with
    | false =>
      rw [hm, if_pos rfl] at h
      exact absurd (useMulti_iff.mpr ⟨h ▸ Nat.le_add_right _ _, (useMulti_iff.mp hm).2⟩)
        (by simp [hm'])
    | true => rw [partitionCount, partitionCount, params_of_multi hm, params_of_multi hm']

/-! ## The partitions of a bank -/

/-- The partition of slots of an epoch, if no assertion fails. -/
def slotRange (c : RentCycle) (start last epoch : Nat) (gapped : Bool) : Partition :=
  if c.IsMiddle epoch ∧ start = 0 ∧ last ≠ 1 then
    (c.baseIndex epoch - 1, last + c.baseIndex epoch - (if gapped then 1 else 0),
      c.partitionCount epoch)
  else (start + c.baseIndex epoch, last + c.baseIndex epoch, c.partitionCount epoch)

variable (o : Overflow)

theorem doPartition_ok (start last epoch : Nat) (gapped : Bool)
    (h : gapped = true → c.IsMiddle epoch → start = 0 → last ≠ 1 → last = 0) :
    c.doPartitionFromSlotIndexes o start last epoch gapped =
      .ok (c.slotRange start last epoch gapped) := by
  rw [doPartition_eq, slotRange]
  split
  · rename_i hspecial
    rw [if_neg fun hg => hg.2 (h hg.1 hspecial.1 hspecial.2.1 hspecial.2.2)]
  · rfl

theorem baseIndex_ge (h : c.IsMiddle epoch) : 32 ≤ c.baseIndex epoch := by
  have hge : 32 ≤ c.epochSchedule.slotsPerEpoch := c.epochSchedule.slotsPerEpoch_ge
  rw [baseIndex_of_multi h.1]
  exact hge.trans (Nat.le_mul_of_pos_left _ (Nat.pos_of_ne_zero h.2))

theorem baseIndex_eq_zero (h : ¬ c.IsMiddle epoch) : c.baseIndex epoch = 0 := by
  rw [isMiddle_iff] at h
  omega

theorem covers_slotRange (start last epoch i : Nat) :
    (c.slotRange start last epoch false).covers i ↔
      if c.IsMiddle epoch ∧ start = 0 ∧ last ≠ 1 then
        c.baseIndex epoch ≤ i ∧ i ≤ last + c.baseIndex epoch
      else (start + c.baseIndex epoch = 0 ∧ last + c.baseIndex epoch = 0 ∧ i = 0) ∨
        (start + c.baseIndex epoch < i ∧ i ≤ last + c.baseIndex epoch) := by
  unfold slotRange
  split
  · rename_i h
    have := baseIndex_ge h.1
    simp only [Partition.covers, Bool.false_eq_true, if_false]
    omega
  · rfl

/-- The rest of an epoch that is not left from its first slot. -/
theorem covers_rest {start last : Nat} (h : ¬ (c.IsMiddle epoch ∧ start = 0)) (hlast : 0 < last) :
    (c.slotRange start last epoch true).covers i ↔
      start + c.baseIndex epoch < i ∧ i ≤ last + c.baseIndex epoch := by
  rw [slotRange, if_neg fun hs => h ⟨hs.1, hs.2.1⟩]
  simp only [Partition.covers]
  omega

theorem covers_first (epoch i : Nat) :
    (c.slotRange 0 0 epoch true).covers i ↔ ¬ c.IsMiddle epoch ∧ i = 0 := by
  unfold slotRange
  split
  · rename_i h
    have := baseIndex_ge h.1
    simp only [Partition.covers, if_true, h.1, not_true, false_and, iff_false]
    omega
  · rename_i h
    have hmiddle : ¬ c.IsMiddle epoch := fun hm => h ⟨hm, rfl, by decide⟩
    simp only [Partition.covers, baseIndex_eq_zero hmiddle, hmiddle, not_false_iff, true_and]
    omega

/-- The partitions of a bank with their epochs. -/
def variableRanges (c : RentCycle) : List (Nat × Partition) :=
  let es := c.epochSchedule
  let parentEpoch := es.getEpoch c.parentSlot
  let epoch := es.getEpoch c.slot
  let parentIndex := c.parentSlot - es.getFirstSlotInEpoch parentEpoch
  let index := c.slot - es.getFirstSlotInEpoch epoch
  if parentEpoch < epoch then
    if 1 < c.slot - c.parentSlot then
      (parentEpoch,
        c.slotRange parentIndex (es.getSlotsInEpoch parentEpoch - 1) parentEpoch true) ::
        ((if 0 < index then [(epoch, c.slotRange 0 0 epoch true)] else [])
          ++ [(epoch, c.slotRange 0 index epoch false)])
    else [(epoch, c.slotRange 0 index epoch false)]
  else [(epoch, c.slotRange parentIndex index epoch false)]

theorem variableCyclePartitions_eq (hwf : c.epochSchedule.WellFormed)
    (hslot : c.parentSlot ≤ c.slot) (hfixes : c.cumulativeRentRelatedFixesEnabled = true)
    (hskip : ¬ c.SkipsRest) :
    ∃ ps, c.variableCyclePartitions o = .ok ps ∧ attributed c.parentEpoch c.epoch ps =
      c.variableRanges := by
  have hge := slots_ge hwf c.parentEpoch
  unfold variableCyclePartitions variableRanges
  unfold SkipsRest at hskip
  rw [index_eq hwf] at hskip
  simp only [index_eq hwf]
  change ∃ ps, (if c.parentEpoch < c.epoch then _ else _) = _ ∧ _
  by_cases hepoch : c.parentEpoch < c.epoch
  · have hlast := doPartition_ok (c := c) o 0
      (c.slot - c.epochSchedule.getFirstSlotInEpoch c.epoch)
      c.epoch false fun h => (nomatch h)
    have hfirst := doPartition_ok (c := c) o 0 0 c.epoch true fun _ _ _ _ => rfl
    simp only [if_pos hepoch]
    change ∃ ps, (c.gappedPartitions o c.parentEpoch _
      c.epoch _ >>= fun gapped => c.doPartitionFromSlotIndexes o 0 _
      c.epoch false >>= fun last => .ok (gapped ++ [last])) = _ ∧ _
    rw [hlast, gappedPartitions_eq o hslot hfixes (by omega)]
    by_cases hgap : 1 < c.slot - c.parentSlot
    · have hrest := doPartition_ok o
        (c.parentSlot - c.epochSchedule.getFirstSlotInEpoch c.parentEpoch)
        (c.epochSchedule.getSlotsInEpoch c.parentEpoch - 1)
        c.parentEpoch true
        fun _ hmiddle h0 => absurd ⟨hepoch, hgap, h0, hmiddle⟩ hskip
      rw [if_pos hgap, if_pos hgap, hrest, hfirst, ok_bind]
      by_cases hindex : 0 < c.slot - c.epochSchedule.getFirstSlotInEpoch c.epoch
      · rw [if_pos hindex, if_pos hindex]
        exact ⟨_, rfl, rfl⟩
      · rw [if_neg hindex, if_neg hindex]
        exact ⟨_, rfl, rfl⟩
    · rw [if_neg hgap, if_neg hgap]
      exact ⟨_, rfl, rfl⟩
  · have hlast := doPartition_ok (c := c) o
      (c.parentSlot - c.epochSchedule.getFirstSlotInEpoch c.parentEpoch)
      (c.slot - c.epochSchedule.getFirstSlotInEpoch c.epoch)
      c.epoch false fun h => (nomatch h)
    simp only [if_neg hepoch]
    change ∃ ps, (c.doPartitionFromSlotIndexes o _ _ c.epoch false >>= fun last => .ok [last]) = _ ∧
        _
    rw [hlast]
    exact ⟨_, rfl, rfl⟩

/-! ## The slots that a bank visits -/

/-- A bank visits the block of a slot. -/
def Visits (c : RentCycle) (t : Nat) : Prop :=
  ∃ r ∈ c.variableRanges, c.cycleStart r.1 = c.cycleStart (c.epochSchedule.getEpoch t) ∧
    r.2.covers (t - c.firstSlotOfCycle (c.epochSchedule.getEpoch t))

/-- The bank enters an epoch in the middle of a cycle in its second slot. -/
def EntersLate (c : RentCycle) : Prop :=
  c.epochSchedule.getEpoch c.parentSlot < c.epochSchedule.getEpoch c.slot ∧
    (c.epochSchedule.getEpochAndSlotIndex c.slot).2 = 1 ∧
      c.IsMiddle (c.epochSchedule.getEpoch c.slot)

instance (c : RentCycle) : Decidable c.EntersLate := by
  unfold EntersLate
  infer_instance

/-- A range of the epoch of a slot, by the index of the slot. -/
theorem visits_of_mem {p : Partition} (hr : (epoch, p) ∈ c.variableRanges)
    (hepoch : c.epochSchedule.getEpoch t = epoch)
    (hcovers : p.covers (t - c.firstSlotOfCycle epoch)) : c.Visits t :=
  ⟨_, hr, by rw [hepoch], by rw [hepoch]; exact hcovers⟩

theorem epoch_spans (hwf : c.epochSchedule.WellFormed) :
    (c.epochSchedule.getFirstSlotInEpoch c.parentEpoch ≤ c.parentSlot ∧ c.parentSlot <
      c.epochSchedule.getFirstSlotInEpoch c.parentEpoch + c.epochSchedule.getSlotsInEpoch
        c.parentEpoch) ∧
    c.epochSchedule.getFirstSlotInEpoch c.epoch ≤ c.slot ∧
      c.slot < c.epochSchedule.getFirstSlotInEpoch c.epoch +
        c.epochSchedule.getSlotsInEpoch c.epoch :=
  ⟨⟨firstSlot_le hwf _, lt_firstSlot_add hwf _⟩, firstSlot_le hwf _, lt_firstSlot_add hwf _⟩

section

variable (hwf : c.epochSchedule.WellFormed)
include hwf

theorem visits_of_same (hsame : c.parentEpoch = c.epoch)
    (hbank : c.parentSlot < c.slot ∨ (c.parentSlot = 0 ∧ c.slot = 0))
    (hspans : Spans (c.parentSlot, c.slot) t) : c.Visits t := by
  obtain ⟨⟨ha, -⟩, -, hb⟩ := epoch_spans hwf
  have hbase := c.firstSlotOfCycle_add hwf c.epoch
  obtain ⟨hle, hgt⟩ := hspans
  rw [hsame] at ha
  have ht : c.epochSchedule.getEpoch t = c.epoch :=
    getEpoch_eq hwf (by omega) (by omega)
  refine visits_of_mem (p := c.slotRange
    (c.parentSlot - c.epochSchedule.getFirstSlotInEpoch c.epoch)
    (c.slot - c.epochSchedule.getFirstSlotInEpoch c.epoch)
    c.epoch false) (by simp [variableRanges, hsame]) ht ?_
  rw [covers_slotRange]
  split
  · omega
  · rcases hbank with hlt | ⟨h0, h0'⟩
    · exact .inr ⟨by omega, by omega⟩
    · -- The genesis bank is in the first epoch of a cycle.
      exact .inl ⟨by omega, by omega, by omega⟩

theorem visits_of_rest (hskip : ¬ c.SkipsRest) (hlt : c.parentSlot < t)
    (hle : t ≤ c.slot) (hparent : c.epochSchedule.getEpoch t = c.parentEpoch)
    (hepoch : c.parentEpoch < c.epoch) : c.Visits t := by
  have ha := (epoch_spans hwf).1.1
  have ht := lt_firstSlot_add hwf t
  have hbase := c.firstSlotOfCycle_add hwf c.parentEpoch
  have hne : t ≠ c.slot := fun h => by rw [h] at hparent; exact hepoch.ne' hparent
  have hgap : 1 < c.slot - c.parentSlot := by omega
  rw [hparent] at ht
  refine visits_of_mem (p := c.slotRange
    (c.parentSlot - c.epochSchedule.getFirstSlotInEpoch c.parentEpoch)
    (c.epochSchedule.getSlotsInEpoch c.parentEpoch - 1)
    c.parentEpoch true) (by simp [variableRanges, hepoch, hgap]) hparent ?_
  rw [covers_rest ?_ (by omega)]
  · omega
  · rintro ⟨hmiddle, h0⟩
    exact hskip ⟨hepoch, hgap, by rwa [index_eq hwf], hmiddle⟩

theorem visits_of_entered (hlate : ¬ c.EntersLate) (hlt : c.parentSlot < t)
    (hle : t ≤ c.slot) (hsame : c.epochSchedule.getEpoch t = c.epoch)
    (hepoch : c.parentEpoch < c.epoch) : c.Visits t := by
  have ht := firstSlot_le hwf t
  have hbase := c.firstSlotOfCycle_add hwf c.epoch
  have hone : c.slot - c.epochSchedule.getFirstSlotInEpoch c.epoch = 1 →
      ¬ c.IsMiddle c.epoch := fun h1 hmiddle =>
    hlate ⟨hepoch, by rwa [index_eq hwf], hmiddle⟩
  rw [hsame] at ht
  by_cases hfirst : t = c.epochSchedule.getFirstSlotInEpoch c.epoch ∧ t < c.slot ∧
      ¬ c.IsMiddle c.epoch
  · -- The first slot of a cycle that is skipped.
    obtain ⟨heq, hskipped, hmiddle⟩ := hfirst
    have hgap : 1 < c.slot - c.parentSlot := by omega
    have hindex : 0 < c.slot - c.epochSchedule.getFirstSlotInEpoch c.epoch := by omega
    refine visits_of_mem (p := c.slotRange 0 0 c.epoch true)
      (by simp [variableRanges, hepoch, hgap, hindex]) hsame ?_
    rw [covers_first]
    have := baseIndex_eq_zero hmiddle
    exact ⟨hmiddle, by omega⟩
  · refine visits_of_mem (p := c.slotRange 0
      (c.slot - c.epochSchedule.getFirstSlotInEpoch c.epoch)
      c.epoch false) ?_ hsame ?_
    · unfold variableRanges
      rw [if_pos hepoch]
      split <;> simp
    · rw [covers_slotRange]
      split
      · omega
      · rename_i hspecial
        by_cases hmiddle : c.IsMiddle c.epoch
        · exact absurd ⟨hmiddle, rfl, fun h1 => hone h1 hmiddle⟩ hspecial
        · have := baseIndex_eq_zero hmiddle
          have : t ≠ c.epochSchedule.getFirstSlotInEpoch c.epoch ∨ t = c.slot := by
            by_contra hnot
            exact hfirst ⟨by omega, by omega, hmiddle⟩
          omega

/-- **A bank visits the slots it stands for.** -/
theorem visits_of_spans (hnext : c.epoch ≤ c.parentEpoch + 1)
    (hbank : c.parentSlot < c.slot ∨ (c.parentSlot = 0 ∧ c.slot = 0)) (hskip : ¬ c.SkipsRest)
    (hlate : ¬ c.EntersLate) (hspans : Spans (c.parentSlot, c.slot) t) : c.Visits t := by
  have hmono : c.parentEpoch ≤ c.epoch :=
    epoch_mono hwf (by omega)
  by_cases hepoch : c.parentEpoch < c.epoch
  · have hlt : c.parentSlot < t := by
      refine hspans.2.resolve_right fun h0 => ?_
      rcases hbank with hlt | ⟨h1, h2⟩
      · omega
      · rw [parentEpoch, epoch, h1, h2] at hepoch
        omega
    have hta : c.parentEpoch ≤ c.epochSchedule.getEpoch t :=
      epoch_mono hwf hlt.le
    have htb : c.epochSchedule.getEpoch t ≤ c.epoch :=
      epoch_mono hwf hspans.1
    by_cases hparent : c.epochSchedule.getEpoch t = c.parentEpoch
    · exact visits_of_rest hwf hskip hlt hspans.1 hparent hepoch
    · exact visits_of_entered hwf hlate hlt hspans.1 (by omega) hepoch
  · exact visits_of_same hwf (by omega) hbank hspans

end

theorem mem_variableRanges (h : r ∈ c.variableRanges) :
    (c.parentEpoch < c.epoch ∧ 1 < c.slot - c.parentSlot ∧
        r =
          (c.parentEpoch,
            c.slotRange (c.parentSlot - c.epochSchedule.getFirstSlotInEpoch c.parentEpoch)
          (c.epochSchedule.getSlotsInEpoch c.parentEpoch - 1) c.parentEpoch true)) ∨
      (c.parentEpoch < c.epoch ∧ r = (c.epoch, c.slotRange 0 0 c.epoch true)) ∨
      (c.parentEpoch < c.epoch ∧
        r =
          (c.epoch,
            c.slotRange 0 (c.slot - c.epochSchedule.getFirstSlotInEpoch c.epoch) c.epoch false)) ∨
      (¬ c.parentEpoch < c.epoch ∧
        r = (c.epoch, c.slotRange (c.parentSlot - c.epochSchedule.getFirstSlotInEpoch c.parentEpoch)
          (c.slot - c.epochSchedule.getFirstSlotInEpoch c.epoch) c.epoch false)) := by
  unfold variableRanges at h
  dsimp only at h
  split at h
  · rename_i hepoch
    split at h
    · rename_i hgap
      rcases List.mem_cons.mp h with h | h
      · exact .inl ⟨hepoch, hgap, h⟩
      · rcases List.mem_append.mp h with h | h
        · split at h
          · exact .inr (.inl ⟨hepoch, List.mem_singleton.mp h⟩)
          · cases h
        · exact .inr (.inr (.inl ⟨hepoch, List.mem_singleton.mp h⟩))
    · exact .inr (.inr (.inl ⟨hepoch, List.mem_singleton.mp h⟩))
  · rename_i hepoch
    exact .inr (.inr (.inr ⟨hepoch, List.mem_singleton.mp h⟩))

section

variable (hwf : c.epochSchedule.WellFormed)
include hwf

/-- **A bank visits no slot before its parent or after its own**, and one that enters an epoch in
its second slot does not visit the first one. -/
theorem le_of_visits (hslot : c.parentSlot ≤ c.slot) (hskip : ¬ c.SkipsRest)
    (h : c.Visits t) :
    c.parentSlot ≤ t ∧ t ≤ c.slot ∧
      (c.EntersLate → t ≠ c.epochSchedule.getFirstSlotInEpoch c.epoch) := by
  obtain ⟨r, hr, hcycle, hcovers⟩ := h
  have hfirst : c.firstSlotOfCycle (c.epochSchedule.getEpoch t) = c.firstSlotOfCycle r.1 := by
    rw [firstSlotOfCycle, firstSlotOfCycle, hcycle]
  have ht := firstSlot_le hwf t
  have hbase := c.firstSlotOfCycle_add hwf (c.epochSchedule.getEpoch t)
  obtain ⟨⟨ha, ha'⟩, hb, -⟩ := epoch_spans hwf
  have hge := slots_ge hwf c.parentEpoch
  have hbase' := c.firstSlotOfCycle_add hwf r.1
  -- The epoch that is entered starts after the parent's.
  have hafter : c.parentEpoch < c.epoch →
      c.epochSchedule.getFirstSlotInEpoch c.parentEpoch
        + c.epochSchedule.getSlotsInEpoch c.parentEpoch
        ≤ c.epochSchedule.getFirstSlotInEpoch c.epoch := by
    intro hepoch
    rw [← firstSlot_succ hwf]
    exact firstSlot_mono hwf hepoch
  rcases mem_variableRanges hr with
    ⟨hepoch, hgap, rfl⟩ | ⟨hepoch, rfl⟩ | ⟨hepoch, rfl⟩ | ⟨hepoch, rfl⟩
  · rw [covers_rest ?_ (by omega)] at hcovers
    · dsimp only at hcovers hbase' hfirst
      exact ⟨by omega, by omega, fun _ => by omega⟩
    · rintro ⟨hmiddle, h0⟩
      exact hskip ⟨hepoch, hgap, by rwa [index_eq hwf], hmiddle⟩
  · rw [covers_first] at hcovers
    have hzero := baseIndex_eq_zero hcovers.1
    dsimp only at hcovers hbase' hfirst
    exact ⟨by omega, by omega, fun hlate => absurd hlate.2.2 hcovers.1⟩
  · rw [covers_slotRange] at hcovers
    dsimp only at hcovers hbase' hfirst
    split at hcovers
    · rename_i hspecial
      refine ⟨by omega, by omega, fun hlate => absurd ?_ hspecial.2.2⟩
      rw [← index_eq hwf]
      exact hlate.2.1
    · refine ⟨by omega, by omega, fun hlate => ?_⟩
      have : 32 ≤ c.baseIndex c.epoch := baseIndex_ge hlate.2.2
      omega
  · have hmono : c.parentEpoch ≤ c.epoch :=
      epoch_mono hwf hslot
    have hsame : c.parentEpoch = c.epoch := by omega
    rw [hsame] at hcovers ha
    rw [covers_slotRange] at hcovers
    dsimp only at hcovers hbase' hfirst
    refine ⟨?_, ?_, fun hlate => absurd hlate.1 hepoch⟩ <;> split at hcovers <;> omega

/-! ## Chains -/

omit hwf in
/-- An epoch in the middle of a cycle is in the cycle of the epoch before. -/
theorem cycleStart_of_isMiddle (h : c.IsMiddle (epoch + 1)) :
    c.cycleStart epoch = c.cycleStart (epoch + 1) := by
  obtain ⟨hle, hlt⟩ := useMulti_iff.mp h.1
  have hmod := h.2
  have hne : c.epochSchedule.firstNormalEpoch ≠ epoch + 1 := fun heq => hmod (by rw [heq]; simp)
  rw [cycleStart, cycleStart, if_pos h.1, if_pos (useMulti_iff.mpr ⟨by omega, hlt⟩)]
  rw [show epoch + 1 - c.epochSchedule.firstNormalEpoch =
    (epoch - c.epochSchedule.firstNormalEpoch) + 1
    by omega] at hmod ⊢
  dsimp only
  rw [Nat.succ_div_of_not_dvd fun hdvd => hmod (Nat.mod_eq_zero_of_dvd hdvd)]

theorem partitionCount_ge (epoch : Nat) : 2 ≤ c.partitionCount epoch := by
  have hge := slots_ge hwf epoch
  have := partitionIndex_lt (show 1 < c.epochSchedule.getSlotsInEpoch epoch by omega)
  omega

theorem partitionCount_lt (hu : c.epochSchedule.slotsPerEpoch < U64)
    (epoch : Nat) : c.partitionCount epoch < U64 := by
  cases h : c.useMultiEpochCollectionCycle epoch with
  | false =>
    rw [partitionCount, params_of_single h]
    by_cases hnormal : c.epochSchedule.firstNormalEpoch ≤ epoch
    · rwa [getSlotsInEpoch_of_normal hnormal]
    · rw [getSlotsInEpoch_of_warmup hwf (by omega)]
      have := hwf.firstNormalEpoch_lt
      exact Nat.pow_lt_pow_right (by decide) (show epoch + 5 < 64 by omega)
  | true =>
    rw [partitionCount, params_of_multi h]
    -- The cycle fits in two days.
    calc c.epochSchedule.slotsPerEpoch * (c.slotCountInTwoDay / c.epochSchedule.slotsPerEpoch)
        ≤ c.slotCountInTwoDay := Nat.mul_div_le _ _
      _ ≤ 2 * DEFAULT_TICKS_PER_SECOND * SECONDS_PER_DAY := Nat.div_le_self _ _
      _ < U64 := by decide

omit hwf in
theorem count_slotRange (start last epoch : Nat) (gapped : Bool) :
    (c.slotRange start last epoch gapped).2.2 = c.partitionCount epoch := by
  unfold slotRange
  split <;> rfl

omit hwf in
theorem count_of_mem_variableRanges (h : r ∈ c.variableRanges) :
    r.2.2.2 = c.partitionCount r.1 := by
  rcases mem_variableRanges h with ⟨-, -, rfl⟩ | ⟨-, rfl⟩ | ⟨-, rfl⟩ | ⟨-, rfl⟩ <;>
    exact count_slotRange _ _ _ _

section

variable (c : RentCycle) (chain : BankChain) (epoch : Nat)

def ofBank (bank : Nat × Nat) : RentCycle := { c with parentSlot := bank.1, slot := bank.2 }

/-- The chain goes through all slots of the cycle of an epoch. -/
def Completes : Prop :=
  chain.Reaches (c.firstSlotOfCycle epoch) ∧
    chain.Reaches (c.firstSlotOfCycle epoch + (c.partitionCount epoch - 1))

/-- A key is in a partition that a bank of the chain has for the cycle of an epoch. -/
def Collects (key : Pubkey) : Prop :=
  ∃ bank ∈ chain.banks, ∃ ps, (c.ofBank bank).variableCyclePartitions o = .ok ps ∧
    ∃ r ∈ attributed (c.epochSchedule.getEpoch bank.1) (c.epochSchedule.getEpoch bank.2) ps,
      c.cycleStart r.1 = c.cycleStart epoch ∧ r.2.contains key = true

/-- Each epoch after the parent's, up to that of the last bank, has a bank. -/
def EachEpoch : Prop :=
  ∀ epoch, c.epochSchedule.getEpoch chain.parent < epoch →
    (∃ s ∈ chain.slots, epoch ≤ c.epochSchedule.getEpoch s) →
    ∃ s ∈ chain.slots, c.epochSchedule.getEpoch s = epoch

end

theorem epoch_le_succ (heach : c.EachEpoch chain) (h : bank ∈ chain.banks) :
    c.epochSchedule.getEpoch bank.2 ≤ c.epochSchedule.getEpoch bank.1 + 1 := by
  rcases mem_banks h with ⟨-, rfl⟩ | ⟨hparent, hlt, hmem⟩
  · exact Nat.le_succ _
  · by_contra hgap
    have hmono : c.epochSchedule.getEpoch chain.parent ≤ c.epochSchedule.getEpoch bank.1 :=
      epoch_mono hwf hparent
    obtain ⟨s, hs, hepoch⟩ :=
      heach (c.epochSchedule.getEpoch bank.1 + 1) (by omega) ⟨bank.2, hmem, by omega⟩
    -- A bank between the parent and the bank.
    have h1 : bank.1 < s := by
      by_contra hle
      have : c.epochSchedule.getEpoch s ≤ c.epochSchedule.getEpoch bank.1 :=
        epoch_mono hwf (by omega)
      omega
    have h2 : s < bank.2 := by
      by_contra hle
      have : c.epochSchedule.getEpoch bank.2 ≤ c.epochSchedule.getEpoch s :=
        epoch_mono hwf (by omega)
      omega
    have := slot_of_spans h ⟨h2.le, .inl h1⟩ hs
    omega

omit hwf in
theorem completes_congr {epoch' : Nat} (h : c.cycleStart epoch = c.cycleStart epoch') :
    c.Completes chain epoch ↔ c.Completes chain epoch' := by
  rw [Completes, Completes, firstSlotOfCycle, firstSlotOfCycle, h, partitionCount_congr h]

/-- The partitions of a bank that does not skip the rest of an epoch. -/
theorem exists_ranges
    (hfixes : c.cumulativeRentRelatedFixesEnabled = true) (h : bank ∈ chain.banks)
    (hskip : ¬ (c.ofBank bank).SkipsRest) :
    ∃ ps, (c.ofBank bank).variableCyclePartitions o = .ok ps ∧ (∀ p ∈ ps, p.IsValid) ∧
      attributed (c.epochSchedule.getEpoch bank.1) (c.epochSchedule.getEpoch bank.2) ps
        = (c.ofBank bank).variableRanges := by
  have hslot : (c.ofBank bank).parentSlot ≤ (c.ofBank bank).slot := le_of_mem_banks h
  obtain ⟨ps, hps, hranges⟩ :=
    variableCyclePartitions_eq (c := c.ofBank bank) o hwf hslot hfixes hskip
  obtain ⟨ps', hps', hvalid⟩ :=
    (variableCyclePartitions_returns_iff (c := c.ofBank bank) o hwf hslot hfixes).mpr hskip
  rw [hps] at hps'
  cases hps'
  exact ⟨ps, hps, hvalid, hranges⟩

/-- The slot of a cycle with the block of a key has the index of the block. -/
theorem visits_slot_iff (hi : i < c.partitionCount epoch) :
    (c.ofBank bank).Visits (c.firstSlotOfCycle epoch + i) ↔
      ∃ r ∈ (c.ofBank bank).variableRanges, c.cycleStart r.1 = c.cycleStart epoch ∧
        r.2.covers i := by
  have hcycle := cycleStart_getEpoch hwf hi
  have hindex : c.firstSlotOfCycle epoch + i
      - c.firstSlotOfCycle (c.epochSchedule.getEpoch (c.firstSlotOfCycle epoch + i)) = i := by
    unfold firstSlotOfCycle at hcycle ⊢
    rw [hcycle, Nat.add_sub_cancel_left]
  change (∃ r ∈ (c.ofBank bank).variableRanges, c.cycleStart r.1
    = c.cycleStart (c.epochSchedule.getEpoch (c.firstSlotOfCycle epoch + i)) ∧ r.2.covers
      (c.firstSlotOfCycle epoch + i
        - c.firstSlotOfCycle (c.epochSchedule.getEpoch (c.firstSlotOfCycle epoch + i)))) ↔ _
  rw [hcycle, hindex]

omit hwf in
theorem count_of_cycle (hr : r ∈ (c.ofBank bank).variableRanges)
    (hcycle : c.cycleStart r.1 = c.cycleStart epoch) : r.2.2.2 = c.partitionCount epoch :=
  (count_of_mem_variableRanges hr).trans (partitionCount_congr hcycle)

section

variable (hu : c.epochSchedule.slotsPerEpoch < U64)
  (hfixes : c.cumulativeRentRelatedFixesEnabled = true)
include hu hfixes

theorem collects_of_visits
    (h : bank ∈ chain.banks) (hskip : ¬ (c.ofBank bank).SkipsRest) {key : Pubkey}
    (hv : (c.ofBank bank).Visits (c.firstSlotOfCycle epoch + block (c.partitionCount epoch) key)) :
    c.Collects o chain epoch key := by
  have hge := c.partitionCount_ge hwf epoch
  have hlt := c.partitionCount_lt hwf hu epoch
  obtain ⟨r, hr, hcycle, hcovers⟩ := (visits_slot_iff hwf (block_lt (by omega) key)).mp hv
  obtain ⟨ps, hps, hvalid, hranges⟩ := exists_ranges o hwf hfixes h hskip
  have hcount := count_of_cycle hr hcycle
  rw [← hranges] at hr
  obtain ⟨noop, -, hiff⟩ := contains_iff (by omega) (by omega) (hvalid _ (mem_of_mem_attributed hr))
  refine ⟨bank, h, ps, hps, r, hr, hcycle, (hiff key).mpr (.inl ?_)⟩
  rw [hcount]
  exact hcovers

/-- A key inside of a block is collected from by a bank that visits the slot of the block. -/
theorem visits_of_collects {o : Overflow}
    (hskip : ∀ bank ∈ chain.banks, ¬ (c.ofBank bank).SkipsRest) (hi : i < c.partitionCount epoch)
    (hcollects : c.Collects o chain epoch (keyOf (c.partitionCount epoch) i)) :
    ∃ bank ∈ chain.banks, (c.ofBank bank).Visits (c.firstSlotOfCycle epoch + i) := by
  have hge := c.partitionCount_ge hwf epoch
  have hlt := c.partitionCount_lt hwf hu epoch
  obtain ⟨bank, h, ps, hps, r, hr, hcycle, hkey⟩ := hcollects
  obtain ⟨ps', hps', hvalid, hranges⟩ := exists_ranges o hwf hfixes h (hskip bank h)
  rw [hps] at hps'
  cases hps'
  have hv := hvalid _ (mem_of_mem_attributed hr)
  rw [hranges] at hr
  have hcount := count_of_cycle hr hcycle
  rw [← hcount, contains_keyOf (by omega) (by omega) hv (by omega)] at hkey
  exact ⟨bank, h, (visits_slot_iff hwf hi).mpr ⟨r, hr, hcycle, hkey⟩⟩

end

/-- A slot of the epoch that a bank enters late is in the cycle of the slots it stands for. -/
theorem cycleStart_of_entersLate
    (hnext : c.epoch ≤ c.parentEpoch + 1) (hlate : c.EntersLate) (hlt : c.parentSlot ≤ t)
    (hle : t ≤ c.slot) : c.cycleStart (c.epochSchedule.getEpoch t) = c.cycleStart c.epoch := by
  have ha : c.parentEpoch ≤ c.epochSchedule.getEpoch t :=
    epoch_mono hwf hlt
  have hb : c.epochSchedule.getEpoch t ≤ c.epoch := epoch_mono hwf hle
  have heq : c.epoch = c.parentEpoch + 1 := Nat.le_antisymm hnext hlate.1
  have hmiddle : c.IsMiddle c.epoch := hlate.2.2
  rw [heq] at hmiddle hb ⊢
  rcases Nat.lt_or_ge c.parentEpoch (c.epochSchedule.getEpoch t) with h | h
  · rw [show c.epochSchedule.getEpoch t = c.parentEpoch + 1 by omega]
  · rw [show c.epochSchedule.getEpoch t = c.parentEpoch by omega]
    exact cycleStart_of_isMiddle hmiddle

end

/-- **The banks of a chain visit every account in each completed cycle, and no assertion fails,
exactly if none leaves an epoch in the middle of a cycle from its first slot, or enters one in its
second slot.** -/
theorem variableCycle_visits_iff (o : Overflow) (hwf : c.epochSchedule.WellFormed)
    (hu : c.epochSchedule.slotsPerEpoch < U64) (hfixes : c.cumulativeRentRelatedFixesEnabled = true)
    (heach : c.EachEpoch chain) :
    ((∀ bank ∈ chain.banks, ∃ ps, (c.ofBank bank).variableCyclePartitions o = .ok ps ∧
        ∀ p ∈ ps, ∃ range, pubkeyRangeFromPartition p = .ok range) ∧
      ∀ epoch, c.Completes chain epoch → ∀ key, c.Collects o chain epoch key) ↔
    ∀ bank ∈ chain.banks, ¬ (c.ofBank bank).SkipsRest ∧
      (c.Completes chain (c.epochSchedule.getEpoch bank.2) → ¬ (c.ofBank bank).EntersLate) := by
  constructor
  · rintro ⟨hreturns, hcollects⟩
    have hskip : ∀ bank ∈ chain.banks, ¬ (c.ofBank bank).SkipsRest := by
      intro bank h
      obtain ⟨ps, hps, hranges⟩ := hreturns bank h
      refine (variableCyclePartitions_returns_iff (c := c.ofBank bank) o hwf
        (le_of_mem_banks h) hfixes).mp ⟨ps, hps, ?_⟩
      intro p hp
      obtain ⟨range, hrange⟩ := hranges p hp
      exact isValid_of_range hrange
    refine fun bank h => ⟨hskip bank h, fun hcomplete hlate => ?_⟩
    -- The first slot of the epoch is visited by no bank.
    have hbase := c.firstSlotOfCycle_add hwf (c.epochSchedule.getEpoch bank.2)
    have hge := slots_ge hwf (c.epochSchedule.getEpoch bank.2)
    have hi : c.baseIndex (c.epochSchedule.getEpoch bank.2)
        < c.partitionCount (c.epochSchedule.getEpoch bank.2) := by
      have := partitionIndex_lt
        (show 0 < c.epochSchedule.getSlotsInEpoch (c.epochSchedule.getEpoch bank.2) by omega)
      omega
    obtain ⟨bank', h', hv⟩ := visits_of_collects hwf hu hfixes hskip hi (hcollects _ hcomplete _)
    rw [hbase] at hv
    obtain ⟨h1, h2, hne⟩ :=
      le_of_visits (c := c.ofBank bank') hwf (le_of_mem_banks h') (hskip bank' h') hv
    have hindex : bank.2 - c.epochSchedule.getFirstSlotInEpoch (c.epochSchedule.getEpoch bank.2) =
        1 := by
      rw [← index_eq hwf]
      exact hlate.2.1
    have hparent :
        bank.1 < c.epochSchedule.getFirstSlotInEpoch (c.epochSchedule.getEpoch bank.2) := by
      have hlt := lt_firstSlot_add hwf bank.1
      have hmono := firstSlot_mono hwf (Nat.succ_le_of_lt hlate.1)
      rw [firstSlot_succ hwf] at hmono
      exact hlt.trans_le hmono
    change bank'.1 ≤ _ at h1
    have hsame : bank' = bank := by
      rcases Nat.lt_or_ge bank'.1
        (c.epochSchedule.getFirstSlotInEpoch (c.epochSchedule.getEpoch bank.2))
        with hlt | hge'
      · exact eq_of_spans h' h ⟨h2, .inl hlt⟩ ⟨by omega, .inl hparent⟩
      · -- A bank whose parent is in the skipped slot stands for the next one.
        have hlt' : bank'.1 < bank'.2 := by
          rcases mem_banks h' with ⟨-, rfl⟩ | ⟨-, hlt, -⟩
          · omega
          · exact hlt
        exact eq_of_spans h' h ⟨by omega, .inl (by omega)⟩ (spans_self h)
    subst hsame
    exact hne hlate rfl
  · intro hall
    have hskip := fun bank h => (hall bank h).1
    refine ⟨fun bank h => ?_, fun epoch hcomplete key => ?_⟩
    · obtain ⟨ps, hps, hvalid, -⟩ := exists_ranges o hwf hfixes h (hskip bank h)
      exact ⟨ps, hps, fun p hp => pubkeyRangeFromPartition_returns (hvalid p hp)⟩
    · have hge := c.partitionCount_ge hwf epoch
      have hblock := block_lt (show 0 < c.partitionCount epoch by omega) key
      have hreach :
          chain.Reaches (c.firstSlotOfCycle epoch + block (c.partitionCount epoch) key) := by
        obtain ⟨⟨hstart, -⟩, -, bank, h, hle⟩ := hcomplete
        exact ⟨hstart.imp (fun h => by omega) id, bank, h, by omega⟩
      obtain ⟨bank, h, hspans⟩ := exists_spans hreach
      have hnext := epoch_le_succ hwf heach h
      have hle := le_of_mem_banks h
      refine collects_of_visits o hwf hu hfixes h (hskip bank h) ?_
      refine visits_of_spans hwf hnext ?_ (hskip bank h) ?_ hspans
      · rcases mem_banks h with ⟨-, rfl⟩ | ⟨-, hlt, -⟩
        · exact .inr ⟨rfl, rfl⟩
        · exact .inl hlt
      · intro hlate
        -- The epoch that is entered late is in the same cycle.
        have hcycle := cycleStart_of_entersLate (c := c.ofBank bank) hwf hnext hlate
          (show bank.1 ≤ _ by have := hspans.2; omega) hspans.1
        refine (hall bank h).2 ((completes_congr (Eq.trans ?_ hcycle)).mp hcomplete) hlate
        exact (cycleStart_getEpoch hwf hblock).symm

/-! ## Cycles of two epochs -/

/-- A cluster with epochs of 32 slots, two in a cycle. -/
def shortEpochs : RentCycle := ⟨0, 0, .shortest, 432000, .mainnetBeta, true, by decide⟩

theorem shortEpochs_wellFormed : shortEpochs.epochSchedule.WellFormed := ⟨rfl, by decide⟩

/-- A chain in the first cycle that has a bank in the first two slots of its second epoch. -/
def steadyChain : BankChain := .fromGenesis [31, 32, 33, 64] (by decide)

theorem steadyChain_eachEpoch : shortEpochs.EachEpoch steadyChain := by
  rintro epoch hlt ⟨s, hs, hle⟩
  have h2 : ∀ s ∈ steadyChain.slots, shortEpochs.epochSchedule.getEpoch s ≤ 2 := by decide +kernel
  have := h2 s hs
  obtain rfl | rfl : epoch = 1 ∨ epoch = 2 := by omega
  · exact ⟨32, by decide, by decide +kernel⟩
  · exact ⟨64, by decide, by decide +kernel⟩

/-- The chain collects rent from all accounts in its first cycle. -/
theorem variableCycle_visits_steadyChain :
    shortEpochs.EachEpoch steadyChain ∧ shortEpochs.Completes steadyChain 0 ∧
      ∀ key, shortEpochs.Collects .checked steadyChain 0 key := by
  have hcomplete : shortEpochs.Completes steadyChain 0 := by
    refine ⟨⟨.inr rfl, (33, 64), ?_, ?_⟩, .inr rfl, (33, 64), ?_, ?_⟩ <;> decide +kernel
  refine ⟨steadyChain_eachEpoch, hcomplete, ?_⟩
  refine ((variableCycle_visits_iff .checked shortEpochs_wellFormed (by decide) rfl
    steadyChain_eachEpoch).mpr fun bank h => ?_).2 0 hcomplete
  have hgood : ∀ bank ∈ steadyChain.banks, ¬ (shortEpochs.ofBank bank).SkipsRest ∧
      ¬ (shortEpochs.ofBank bank).EntersLate := by decide +kernel
  exact ⟨(hgood bank h).1, fun _ => (hgood bank h).2⟩

/-- A chain that skips the first slot of the second epoch. -/
def lateChain : BankChain := .fromGenesis [31, 33, 64] (by decide)

def okPartitions : Except Panic (List Partition) → List Partition
  | .ok ps => ps
  | .error _ => []

/-- **Accounts are left out by a bank in the second slot of an epoch, and a bank after the first
slot of an epoch fails an assertion.** -/
theorem variableCycle_fails :
    (shortEpochs.EachEpoch lateChain ∧ shortEpochs.Completes lateChain 0 ∧
      ¬ shortEpochs.Collects .wrapping lateChain 0 (keyOf 64 32)) ∧
    (shortEpochs.ofBank (32, 64)).variableCyclePartitions .wrapping = .error .assertion := by
  refine ⟨⟨?_, ?_, ?_⟩, eq_error_of_panicOf (by decide +kernel)⟩
  · rintro epoch hlt ⟨s, hs, hle⟩
    have h2 : ∀ s ∈ lateChain.slots, shortEpochs.epochSchedule.getEpoch s ≤ 2 := by decide +kernel
    have := h2 s hs
    obtain rfl | rfl : epoch = 1 ∨ epoch = 2 := by omega
    · exact ⟨33, by decide, by decide +kernel⟩
    · exact ⟨64, by decide, by decide +kernel⟩
  · refine ⟨⟨.inr rfl, (33, 64), ?_, ?_⟩, .inr rfl, (33, 64), ?_, ?_⟩ <;> decide +kernel
  · rintro ⟨bank, h, ps, hps, r, hr, -, hkey⟩
    have hnone : ∀ bank ∈ lateChain.banks,
        ∀ r ∈ attributed (shortEpochs.epochSchedule.getEpoch bank.1)
        (shortEpochs.epochSchedule.getEpoch bank.2)
        (okPartitions ((shortEpochs.ofBank bank).variableCyclePartitions .wrapping)),
        r.2.contains (keyOf 64 32) = false := by decide +kernel
    have hmiss := hnone bank h r (by rw [hps]; exact hr)
    rw [hmiss] at hkey
    cases hkey

end RentCycle

end Panoptes.Runtime
