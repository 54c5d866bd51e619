import Panoptes.Sdk.EpochSchedule

/-!
# The partitions of rent collection

`runtime/src/bank.rs`: each bank collects rent from the accounts in a part of the range of all keys,
so that a cycle of banks goes through all of them.  A cycle is an epoch, a number of epochs that fit
in two days, or two days.  Slots that were skipped since the parent are caught up.

* `variableCyclePartitions`, `fixedCyclePartitions` — the partitions of a bank.
* `pubkeyRangeFromPartition` — the keys of a partition.

Principal result: `partitions_returns_iff`.  The indices pass all assertions but one: the rest of an
epoch that is skipped from its first slot on, in the middle of a cycle of several epochs, is taken
for a single slot.
-/

set_option autoImplicit false

namespace Panoptes.Runtime

open Lib Sdk EpochSchedule

inductive ClusterType where
  | testnet
  | mainnetBeta
  | devnet
  | development
  deriving DecidableEq, Repr

def DEFAULT_TICKS_PER_SECOND : Nat := 160
def SECONDS_PER_DAY : Nat := 24 * 60 * 60

/-- A start index, an end index, and the number of partitions. -/
abbrev Partition := Nat × Nat × Nat

/-- What the partitions of a bank depend on. -/
structure RentCycle where
  slot : Nat
  parentSlot : Nat
  epochSchedule : EpochSchedule
  ticksPerSlot : Nat
  clusterType : ClusterType
  cumulativeRentRelatedFixesEnabled : Bool
  ticksPerSlot_pos : 0 < ticksPerSlot

structure RentCollectionCycleParams where
  epoch : Nat
  slotCountPerEpoch : Nat
  inMultiEpochCycle : Bool
  baseEpoch : Nat
  epochCountPerCycle : Nat
  partitionCount : Nat

variable (o : Overflow)

def partitionIndexFromSlotIndex (slotIndexInEpoch : Nat) (params : RentCollectionCycleParams) :
    Except Panic Nat := do
  let epochOffset ← subU64 o params.epoch params.baseEpoch
  let epochIndexInCycle := epochOffset % params.epochCountPerCycle
  .ok (slotIndexInEpoch + epochIndexInCycle * params.slotCountPerEpoch)

/-- The partitions of a bank in a cycle of `n` slots. -/
def fixedPartitions (n parentSlot slot : Nat) : List Partition :=
  let parentCycle := parentSlot / n
  let currentCycle := slot / n
  let parentCycleIndex := parentSlot % n
  let currentCycleIndex := slot % n
  if parentCycle < currentCycle then
    (if 0 < currentCycleIndex then [(parentCycleIndex, n - 1, n), (0, 0, n)] else [])
      ++ [(0, currentCycleIndex, n)]
  else [(parentCycleIndex, currentCycleIndex, n)]

namespace RentCycle

variable (o : Overflow) (c : RentCycle)

def slotCountInTwoDay : Nat := 2 * DEFAULT_TICKS_PER_SECOND * SECONDS_PER_DAY / c.ticksPerSlot

def slotCountPerNormalEpoch : Nat :=
  c.epochSchedule.getSlotsInEpoch c.epochSchedule.firstNormalEpoch

def useMultiEpochCollectionCycle (epoch : Nat) : Bool :=
  decide (c.epochSchedule.firstNormalEpoch ≤ epoch) &&
    decide (c.slotCountPerNormalEpoch < c.slotCountInTwoDay)

def useFixedCollectionCycle : Bool :=
  decide (c.clusterType ≠ .mainnetBeta) && decide (c.slotCountPerNormalEpoch < c.slotCountInTwoDay)

def determineCollectionCycleParams (epoch : Nat) : RentCollectionCycleParams :=
  let slotCountPerEpoch := c.epochSchedule.getSlotsInEpoch epoch
  if c.useMultiEpochCollectionCycle epoch = false then
    ⟨epoch, slotCountPerEpoch, false, 0, 1, slotCountPerEpoch⟩
  else
    let epochCountInCycle := c.slotCountInTwoDay / slotCountPerEpoch
    ⟨epoch, slotCountPerEpoch, true, c.epochSchedule.firstNormalEpoch, epochCountInCycle,
      slotCountPerEpoch * epochCountInCycle⟩

def doPartitionFromSlotIndexes (startSlotIndex endSlotIndex epoch : Nat)
    (generatedForGappedEpochs : Bool) : Except Panic Partition := do
  let params := c.determineCollectionCycleParams epoch
  let startPartitionIndex ← partitionIndexFromSlotIndex o startSlotIndex params
  let endPartitionIndex ← partitionIndexFromSlotIndex o endSlotIndex params
  let isSpecialNewEpoch := startSlotIndex = 0 ∧ endSlotIndex ≠ 1
  let inMiddleOfCycle := 0 < startPartitionIndex
  if params.inMultiEpochCycle ∧ isSpecialNewEpoch ∧ inMiddleOfCycle then do
    -- The indices of an epoch that was just entered are off by one.
    let startPartitionIndex ← subU64 o startPartitionIndex 1
    if generatedForGappedEpochs then do
      assert (startSlotIndex = endSlotIndex)
      let endPartitionIndex ← subU64 o endPartitionIndex 1
      .ok (startPartitionIndex, endPartitionIndex, params.partitionCount)
    else .ok (startPartitionIndex, endPartitionIndex, params.partitionCount)
  else .ok (startPartitionIndex, endPartitionIndex, params.partitionCount)

/-- Whether slots were skipped on the way into the current epoch. -/
def slotSkipped (currentSlotIndex : Nat) : Except Panic Bool :=
  if c.cumulativeRentRelatedFixesEnabled then do
    let gap ← subU64 o c.slot c.parentSlot
    .ok (decide (1 < gap))
  else .ok (decide (0 < currentSlotIndex))

/-- The partitions for the slots skipped at the end of the epoch of the parent, and on entry of this
one. -/
def gappedPartitions (parentEpoch parentSlotIndex currentEpoch currentSlotIndex : Nat) :
    Except Panic (List Partition) := do
  let skipped ← c.slotSkipped o currentSlotIndex
  if skipped then do
    let parentLastSlotIndex ← subU64 o (c.epochSchedule.getSlotsInEpoch parentEpoch) 1
    let parent ← c.doPartitionFromSlotIndexes o parentSlotIndex parentLastSlotIndex parentEpoch true
    if c.cumulativeRentRelatedFixesEnabled ∧ 0 < currentSlotIndex then do
      let current ← c.doPartitionFromSlotIndexes o 0 0 currentEpoch true
      .ok [parent, current]
    else .ok [parent]
  else .ok []

def variableCyclePartitions : Except Panic (List Partition) := do
  let (currentEpoch, currentSlotIndex) := c.epochSchedule.getEpochAndSlotIndex c.slot
  let (parentEpoch, parentSlotIndex) := c.epochSchedule.getEpochAndSlotIndex c.parentSlot
  if parentEpoch < currentEpoch then do
    let gapped ← c.gappedPartitions o parentEpoch parentSlotIndex currentEpoch currentSlotIndex
    let last ← c.doPartitionFromSlotIndexes o 0 currentSlotIndex currentEpoch false
    .ok (gapped ++ [last])
  else do
    let last ← c.doPartitionFromSlotIndexes o parentSlotIndex currentSlotIndex currentEpoch false
    .ok [last]

def fixedCyclePartitions : List Partition := fixedPartitions c.slotCountInTwoDay c.parentSlot c.slot

def rentCollectionPartitions : Except Panic (List Partition) :=
  if c.useFixedCollectionCycle = false then c.variableCyclePartitions o
    else .ok c.fixedCyclePartitions

end RentCycle

/-! ## The keys of a partition -/

def PREFIX_MAX : Nat := U64 - 1

/-- The largest number in the 24 bytes after the eight that partitions are made of. -/
def SUFFIX_MAX : Nat := 2 ^ 192 - 1

/-- A key of its first eight bytes and the others. -/
def pubkeyOf (high low : Nat) : Pubkey := BitVec.ofNat 256 (high * 2 ^ 192 + low)

/-- `pubkey_range_from_partition`: the first and the last key. -/
def pubkeyRangeFromPartition (partition : Partition) : Except Panic (Pubkey × Pubkey) := do
  let (startIndex, endIndex, partitionCount) := partition
  assert (startIndex ≤ endIndex)
  assert (startIndex < partitionCount)
  assert (endIndex < partitionCount)
  assert (0 < partitionCount)
  if partitionCount = 1 then do
    assert (startIndex = 0)
    assert (endIndex = 0)
    .ok (pubkeyOf 0 0, pubkeyOf PREFIX_MAX SUFFIX_MAX)
  else
    let partitionWidth := (PREFIX_MAX - partitionCount + 1) / partitionCount + 1
    let startKey :=
      if startIndex = 0 ∧ endIndex = 0 then 0
      else if startIndex + 1 = partitionCount then PREFIX_MAX
      else (startIndex + 1) * partitionWidth
    let endKey :=
      if endIndex + 1 = partitionCount then PREFIX_MAX else (endIndex + 1) * partitionWidth - 1
    if startIndex ≠ 0 ∧ startIndex = endIndex then
      -- A range of one key, that stands for none.
      if endKey = PREFIX_MAX then .ok (pubkeyOf endKey SUFFIX_MAX, pubkeyOf endKey SUFFIX_MAX)
      else .ok (pubkeyOf startKey 0, pubkeyOf startKey 0)
    else .ok (pubkeyOf startKey 0, pubkeyOf endKey SUFFIX_MAX)

def Partition.contains (p : Partition) (key : Pubkey) : Bool :=
  match pubkeyRangeFromPartition p with
  | .ok range => decide (range.1 ≤ key) && decide (key ≤ range.2)
  | .error _ => false

/-! ## Assertions -/

variable {p : Partition}

/-- The indices that `pubkey_range_from_partition` takes. -/
def Partition.IsValid (p : Partition) : Prop := p.1 ≤ p.2.1 ∧ p.2.1 < p.2.2

theorem isValid_of_range {range : Pubkey × Pubkey} (h : pubkeyRangeFromPartition p = .ok range) :
    p.IsValid := by
  obtain ⟨⟨⟩, h1, h⟩ := bind_eq_ok.mp h
  obtain ⟨⟨⟩, -, h⟩ := bind_eq_ok.mp h
  obtain ⟨⟨⟩, h3, -⟩ := bind_eq_ok.mp h
  exact ⟨of_assert h1, of_assert h3⟩

theorem pubkeyRangeFromPartition_returns (h : p.IsValid) :
    ∃ range, pubkeyRangeFromPartition p = .ok range := by
  obtain ⟨startIndex, endIndex, partitionCount⟩ := p
  obtain ⟨hle, hlt⟩ := h
  dsimp only at hle hlt
  have h1 := assert_pos (show startIndex ≤ endIndex from hle)
  have h2 := assert_pos (show startIndex < partitionCount by omega)
  have h3 := assert_pos (show endIndex < partitionCount from hlt)
  have h4 := assert_pos (show 0 < partitionCount by omega)
  unfold pubkeyRangeFromPartition
  dsimp only
  rw [h1, h2, h3, h4]
  split
  · have h5 := assert_pos (show startIndex = 0 by omega)
    have h6 := assert_pos (show endIndex = 0 by omega)
    rw [h5, h6]
    exact ⟨_, rfl⟩
  · split_ifs <;> exact ⟨_, rfl⟩

theorem fixedPartitions_valid {n parentSlot slot : Nat} (hn : 0 < n) (hslot : parentSlot ≤ slot) :
    ∀ p ∈ fixedPartitions n parentSlot slot, p.IsValid := by
  have hcurrent := Nat.mod_lt slot hn
  have hparent := Nat.mod_lt parentSlot hn
  unfold fixedPartitions
  dsimp only
  split
  · split
    · intro p hp
      simp only [List.cons_append, List.nil_append, List.mem_cons, List.not_mem_nil, or_false] at hp
      rcases hp with rfl | rfl | rfl
      · exact ⟨Nat.le_sub_one_of_lt hparent, Nat.sub_lt hn Nat.one_pos⟩
      · exact ⟨le_rfl, hn⟩
      · exact ⟨Nat.zero_le _, hcurrent⟩
    · intro p hp
      simp only [List.nil_append, List.mem_singleton] at hp
      subst hp
      exact ⟨Nat.zero_le _, hcurrent⟩
  · rename_i hcycle
    intro p hp
    rw [List.mem_singleton] at hp
    subst hp
    refine ⟨?_, hcurrent⟩
    have hdiv : parentSlot / n = slot / n :=
      le_antisymm (Nat.div_le_div_right hslot) (not_lt.mp hcycle)
    have h1 := Nat.div_add_mod parentSlot n
    have h2 := Nat.div_add_mod slot n
    rw [hdiv] at h1
    show parentSlot % _ ≤ slot % _
    omega

namespace RentCycle

variable {c : RentCycle} {epoch parentEpoch index : Nat}

/-- The partition index of the first slot of an epoch. -/
def baseIndex (c : RentCycle) (epoch : Nat) : Nat :=
  let params := c.determineCollectionCycleParams epoch
  (params.epoch - params.baseEpoch) % params.epochCountPerCycle * params.slotCountPerEpoch

/-- An epoch that is not the first of its cycle. -/
def IsMiddle (c : RentCycle) (epoch : Nat) : Prop :=
  c.useMultiEpochCollectionCycle epoch = true ∧
    (epoch - c.epochSchedule.firstNormalEpoch) %
      (c.slotCountInTwoDay / c.epochSchedule.slotsPerEpoch) ≠ 0

instance (c : RentCycle) (epoch : Nat) : Decidable (c.IsMiddle epoch) :=
    inferInstanceAs (Decidable (_ ∧ _))

section

variable (h : c.useMultiEpochCollectionCycle epoch = true)
include h

theorem firstNormalEpoch_le_of_multi : c.epochSchedule.firstNormalEpoch ≤ epoch := by
  simp only [useMultiEpochCollectionCycle, Bool.and_eq_true, decide_eq_true_eq] at h
  exact h.1

theorem slots_of_multi :
    c.epochSchedule.getSlotsInEpoch epoch = c.epochSchedule.slotsPerEpoch ∧
      c.epochSchedule.slotsPerEpoch < c.slotCountInTwoDay := by
  simp only [useMultiEpochCollectionCycle, Bool.and_eq_true, decide_eq_true_eq,
    slotCountPerNormalEpoch,
    slotsPerNormalEpoch] at h
  exact ⟨getSlotsInEpoch_of_normal h.1, h.2⟩

theorem params_of_multi :
    c.determineCollectionCycleParams epoch = ⟨epoch, c.epochSchedule.slotsPerEpoch, true,
      c.epochSchedule.firstNormalEpoch, c.slotCountInTwoDay / c.epochSchedule.slotsPerEpoch,
      c.epochSchedule.slotsPerEpoch * (c.slotCountInTwoDay / c.epochSchedule.slotsPerEpoch)⟩ := by
  simp [determineCollectionCycleParams, h, (slots_of_multi h).1]

end

theorem params_of_single (h : c.useMultiEpochCollectionCycle epoch = false) :
    c.determineCollectionCycleParams epoch =
      ⟨epoch, c.epochSchedule.getSlotsInEpoch epoch, false, 0, 1,
      c.epochSchedule.getSlotsInEpoch epoch⟩ := by
  simp [determineCollectionCycleParams, h]

theorem baseIndex_of_multi (h : c.useMultiEpochCollectionCycle epoch = true) :
    c.baseIndex epoch = (epoch - c.epochSchedule.firstNormalEpoch)
      % (c.slotCountInTwoDay / c.epochSchedule.slotsPerEpoch) * c.epochSchedule.slotsPerEpoch := by
  simp [baseIndex, params_of_multi h]

theorem baseIndex_of_single (h : c.useMultiEpochCollectionCycle epoch = false) :
    c.baseIndex epoch = 0 := by
  simp [baseIndex, params_of_single h, Nat.mod_one]

theorem isMiddle_iff : c.IsMiddle epoch ↔ 0 < c.baseIndex epoch := by
  cases h : c.useMultiEpochCollectionCycle epoch with
  | false => simp [IsMiddle, h, baseIndex_of_single h]
  | true =>
    have hpos := c.epochSchedule.pos
    simp [IsMiddle, h, baseIndex_of_multi h, Nat.pos_iff_ne_zero, hpos.ne']

theorem partitionIndex_eq (i epoch : Nat) :
    partitionIndexFromSlotIndex o i (c.determineCollectionCycleParams epoch) =
      .ok (i + c.baseIndex epoch) := by
  have hle : (c.determineCollectionCycleParams epoch).baseEpoch
      ≤ (c.determineCollectionCycleParams epoch).epoch := by
    cases h : c.useMultiEpochCollectionCycle epoch with
    | false => simp [params_of_single h]
    | true => simp [params_of_multi h, firstNormalEpoch_le_of_multi h]
  rw [partitionIndexFromSlotIndex, subU64_ok o hle]
  rfl

def partitionCount (c : RentCycle) (epoch : Nat) : Nat :=
  (c.determineCollectionCycleParams epoch).partitionCount

theorem partitionIndex_lt {i : Nat} (hi : i < c.epochSchedule.getSlotsInEpoch epoch) :
    i + c.baseIndex epoch < c.partitionCount epoch := by
  cases h : c.useMultiEpochCollectionCycle epoch with
  | false => simpa [partitionCount, baseIndex_of_single h, params_of_single h]
  | true =>
    obtain ⟨hslots, hlt⟩ := slots_of_multi h
    rw [baseIndex_of_multi h, partitionCount, params_of_multi h]
    rw [hslots] at hi
    have hcount : 0 < c.slotCountInTwoDay / c.epochSchedule.slotsPerEpoch :=
      Nat.div_pos hlt.le (pos _)
    have hmod := Nat.mod_lt (epoch - c.epochSchedule.firstNormalEpoch) hcount
    -- The epochs of the cycle before this one, and this one, fit.
    calc i + _ < c.epochSchedule.slotsPerEpoch + _ := Nat.add_lt_add_right hi _
      _ = ((epoch - c.epochSchedule.firstNormalEpoch)
            % (c.slotCountInTwoDay / c.epochSchedule.slotsPerEpoch) + 1) *
              c.epochSchedule.slotsPerEpoch := by
          rw [Nat.add_mul]
          omega
      _ ≤ (c.slotCountInTwoDay / c.epochSchedule.slotsPerEpoch) * c.epochSchedule.slotsPerEpoch :=
          Nat.mul_le_mul_right _ hmod
      _ = _ := Nat.mul_comm _ _

/-- **The partition of slots of one epoch**, with the index before the first slot of an epoch in the
middle of a cycle.  No index is below zero. -/
theorem doPartition_eq (start last epoch : Nat) (gapped : Bool) :
    c.doPartitionFromSlotIndexes o start last epoch gapped =
      if c.IsMiddle epoch ∧ start = 0 ∧ last ≠ 1 then
        if gapped = true ∧ last ≠ 0 then .error .assertion
        else .ok (c.baseIndex epoch - 1, last + c.baseIndex epoch - (if gapped then 1 else 0),
          c.partitionCount epoch)
      else .ok (start + c.baseIndex epoch, last + c.baseIndex epoch, c.partitionCount epoch) := by
  have hmulti : (c.determineCollectionCycleParams epoch).inMultiEpochCycle
      = c.useMultiEpochCollectionCycle epoch := by
    cases h : c.useMultiEpochCollectionCycle epoch with
    | false => rw [params_of_single h]
    | true => rw [params_of_multi h]
  simp only [doPartitionFromSlotIndexes, partitionIndex_eq, ok_bind, hmulti]
  by_cases h : c.IsMiddle epoch ∧ start = 0 ∧ last ≠ 1
  · obtain ⟨hmiddle, rfl, hone⟩ := h
    have hbase := isMiddle_iff.mp hmiddle
    rw [if_pos ⟨hmiddle.1, ⟨rfl, hone⟩, by omega⟩, if_pos ⟨hmiddle, rfl, hone⟩,
      subU64_ok o (by omega), ok_bind]
    cases gapped with
    | false => simp [partitionCount]
    | true =>
      by_cases hlast : last = 0
      · subst hlast
        simp [assert_pos, subU64_ok o (show 1 ≤ c.baseIndex epoch from hbase),
          ok_bind, partitionCount]
      · simp only [if_pos (And.intro trivial hlast)]
        rw [assert, if_neg (Ne.symm hlast)]
        rfl
  · rw [if_neg h, if_neg]
    · rfl
    · rintro ⟨hm, ⟨rfl, hone⟩, hpos⟩
      exact h ⟨isMiddle_iff.mpr (by omega), rfl, hone⟩

/-- The partition of slots of one epoch passes the assertions on its indices. -/
theorem doPartition_returns (start last epoch : Nat) (gapped : Bool) (hle : start ≤ last)
    (hlast : last < c.epochSchedule.getSlotsInEpoch epoch)
    (hgap : gapped = true → c.IsMiddle epoch → start = 0 → last ≠ 1 → last = 0) :
    ∃ p, c.doPartitionFromSlotIndexes o start last epoch gapped = .ok p ∧ p.IsValid := by
  have hbound := partitionIndex_lt hlast
  rw [doPartition_eq]
  split
  · rename_i h
    rw [if_neg fun hg => hg.2 (hgap hg.1 h.1 h.2.1 h.2.2)]
    refine ⟨_, rfl, ?_, Nat.lt_of_le_of_lt (Nat.sub_le _ _) hbound⟩
    show c.baseIndex epoch - 1 ≤ last + c.baseIndex epoch - _
    split <;> omega
  · exact ⟨_, rfl, show start + c.baseIndex epoch ≤ last + c.baseIndex epoch by omega, hbound⟩

/-- The rest of the epoch of the parent is skipped from its first slot on, in the middle of a cycle
of several epochs. -/
def SkipsRest (c : RentCycle) : Prop :=
  c.epochSchedule.getEpoch c.parentSlot < c.epochSchedule.getEpoch c.slot ∧
  1 < c.slot - c.parentSlot ∧
  (c.epochSchedule.getEpochAndSlotIndex c.parentSlot).2 = 0 ∧
  c.IsMiddle (c.epochSchedule.getEpoch c.parentSlot)

instance (c : RentCycle) : Decidable c.SkipsRest := by
  unfold SkipsRest
  infer_instance

/-- The bank skips the rest of an epoch, and its cycle is not fixed. -/
def SkipsRestOfEpoch (c : RentCycle) : Prop := c.useFixedCollectionCycle = false ∧ c.SkipsRest

instance (c : RentCycle) : Decidable c.SkipsRestOfEpoch := inferInstanceAs (Decidable (_ ∧ _))

section

variable (o : Overflow) (hslot : c.parentSlot ≤ c.slot)
  (hfixes : c.cumulativeRentRelatedFixesEnabled = true)
include hslot hfixes

theorem slotSkipped_eq (index : Nat) :
    c.slotSkipped o index = .ok (decide (1 < c.slot - c.parentSlot)) := by
  simp [slotSkipped, hfixes, subU64_ok o hslot, ok_bind]

/-- **The gapped partitions**: the rest of the epoch of the parent, and the first slot of this
one. -/
theorem gappedPartitions_eq
    (hslots : 1 ≤ c.epochSchedule.getSlotsInEpoch parentEpoch) (parentIndex epoch index : Nat) :
    c.gappedPartitions o parentEpoch parentIndex epoch index =
      if 1 < c.slot - c.parentSlot then do
        let parent ← c.doPartitionFromSlotIndexes o parentIndex
          (c.epochSchedule.getSlotsInEpoch parentEpoch - 1) parentEpoch true
        if 0 < index then do
          let current ← c.doPartitionFromSlotIndexes o 0 0 epoch true
          .ok [parent, current]
        else .ok [parent]
      else .ok [] := by
  simp only [gappedPartitions, slotSkipped_eq o hslot hfixes, ok_bind, decide_eq_true_eq,
    hfixes, true_and,
    subU64_ok o hslots]

theorem gappedPartitions_returns {parentIndex : Nat}
    (hparent : parentIndex < c.epochSchedule.getSlotsInEpoch parentEpoch)
    (hindex : index < c.epochSchedule.getSlotsInEpoch epoch)
    (hskip : 1 < c.slot - c.parentSlot → c.IsMiddle parentEpoch → parentIndex ≠ 0) :
    ∃ ps, c.gappedPartitions o parentEpoch parentIndex epoch index = .ok ps ∧
      ∀ p ∈ ps, p.IsValid := by
  rw [gappedPartitions_eq o hslot hfixes (by omega)]
  split
  · rename_i hgap
    obtain ⟨parent, hp, hpv⟩ := doPartition_returns o parentIndex
      (c.epochSchedule.getSlotsInEpoch parentEpoch - 1) parentEpoch true
      (by omega) (by omega) fun _ hmiddle h0 => absurd h0 (hskip hgap hmiddle)
    obtain ⟨current, hc, hcv⟩ := doPartition_returns (c := c) o 0 0 epoch true le_rfl (by omega)
      fun _ _ _ _ => rfl
    rw [hp, hc]
    split
    · exact ⟨_, rfl, by simp [hpv, hcv]⟩
    · exact ⟨_, rfl, by simp [hpv]⟩
  · exact ⟨_, rfl, by simp⟩

end

theorem slots_ge_of_isMiddle (h : c.IsMiddle epoch) :
    MINIMUM_SLOTS_PER_EPOCH ≤ c.epochSchedule.getSlotsInEpoch epoch := by
  rw [(slots_of_multi h.1).1]
  exact c.epochSchedule.slotsPerEpoch_ge

/-- From the first slot of an epoch in the middle of a cycle on, the two indices are not the
same. -/
theorem gappedPartitions_fails (hslot : c.parentSlot ≤ c.slot)
    (hfixes : c.cumulativeRentRelatedFixesEnabled = true) (hgap : 1 < c.slot - c.parentSlot)
    (hmiddle : c.IsMiddle parentEpoch) :
    c.gappedPartitions o parentEpoch 0 epoch index = .error .assertion := by
  have hge := slots_ge_of_isMiddle hmiddle
  simp only [MINIMUM_SLOTS_PER_EPOCH] at hge
  rw [gappedPartitions_eq o hslot hfixes (by omega), if_pos hgap, doPartition_eq,
    if_pos ⟨hmiddle, rfl, by omega⟩, if_pos ⟨rfl, by omega⟩]
  rfl

section

variable (o : Overflow) (hwf : c.epochSchedule.WellFormed) (hslot : c.parentSlot ≤ c.slot)
  (hfixes : c.cumulativeRentRelatedFixesEnabled = true)
include hwf hslot hfixes

theorem variableCyclePartitions_returns_iff :
    (∃ ps, c.variableCyclePartitions o = .ok ps ∧ ∀ p ∈ ps, p.IsValid) ↔ ¬ c.SkipsRest := by
  have hparent := index_lt hwf c.parentSlot
  have hcurrent := index_lt hwf c.slot
  have hmono := epoch_mono hwf hslot
  have hindex := index_mono hwf hslot
  unfold SkipsRest variableCyclePartitions getEpoch
  generalize c.epochSchedule.getEpochAndSlotIndex c.parentSlot = parent at *
  generalize c.epochSchedule.getEpochAndSlotIndex c.slot = current at *
  obtain ⟨parentEpoch, parentIndex⟩ := parent
  obtain ⟨epoch, index⟩ := current
  dsimp only at *
  by_cases hepoch : parentEpoch < epoch
  · rw [if_pos hepoch]
    constructor
    · -- Skipping the rest of the epoch fails the assertion.
      rintro ⟨ps, hps, -⟩ ⟨-, hgap, rfl, hmiddle⟩
      rw [gappedPartitions_fails o hslot hfixes hgap hmiddle] at hps
      cases hps
    · intro hskip
      obtain ⟨gapped, hg, hgv⟩ := gappedPartitions_returns o hslot hfixes hparent hcurrent
        fun hgap hmiddle h0 => hskip ⟨hepoch, hgap, h0, hmiddle⟩
      obtain ⟨last, hl, hlv⟩ := doPartition_returns o 0 index epoch false (Nat.zero_le _) hcurrent
        fun h => (nomatch h)
      rw [hg, hl]
      refine ⟨_, rfl, fun p hp => ?_⟩
      rcases List.mem_append.mp hp with hp | hp
      · exact hgv p hp
      · exact List.mem_singleton.mp hp ▸ hlv
  · rw [if_neg hepoch]
    have heq : parentEpoch = epoch := by omega
    obtain ⟨last, hl, hlv⟩ :=
      doPartition_returns o parentIndex index epoch false (hindex heq) hcurrent
      fun h => (nomatch h)
    rw [hl]
    refine ⟨fun _ h => hepoch h.1, fun _ => ⟨_, rfl, fun p hp => List.mem_singleton.mp hp ▸ hlv⟩⟩

/-- **The assertions on partitions hold exactly if no epoch is skipped from its first slot on** in
the middle of a cycle. -/
theorem partitions_returns_iff :
    (∃ ps, c.rentCollectionPartitions o = .ok ps ∧ ∀ p ∈ ps, p.IsValid) ↔ ¬ c.SkipsRestOfEpoch := by
  unfold rentCollectionPartitions SkipsRestOfEpoch
  cases hfixed : c.useFixedCollectionCycle with
  | false =>
    rw [if_pos rfl, variableCyclePartitions_returns_iff o hwf hslot hfixes]
    simp
  | true =>
    have hn : 0 < c.slotCountInTwoDay := by
      simp only [useFixedCollectionCycle, Bool.and_eq_true, decide_eq_true_eq] at hfixed
      omega
    refine ⟨fun _ h => ?_, fun _ => ⟨_, rfl, fixedPartitions_valid hn hslot⟩⟩
    cases h.1

end

end RentCycle

end Panoptes.Runtime
