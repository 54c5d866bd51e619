import Panoptes.Sdk.Clock

/-!
# Slots and epochs

`sdk/program/src/epoch_schedule.rs`: warm-up epochs double in length until the first normal epoch.
A slot is the first slot of its epoch and an index below the length of the epoch.

Principal results: `first_add_index`, `index_lt`, and `epoch_mono`, `index_mono`: a later slot is in
no earlier epoch, and in the same epoch at no earlier index.
-/

set_option autoImplicit false

namespace Panoptes.Sdk.EpochSchedule

open Lib

section

variable (es : EpochSchedule) (epoch : Nat)

def getSlotsInEpoch : Nat :=
  if epoch < es.firstNormalEpoch then 2 ^ (epoch + log2NextPowerOfTwo MINIMUM_SLOTS_PER_EPOCH) % U64
  else es.slotsPerEpoch

def getFirstSlotInEpoch : Nat :=
  if epoch ≤ es.firstNormalEpoch then (2 ^ epoch - 1) * MINIMUM_SLOTS_PER_EPOCH
  else (epoch - es.firstNormalEpoch) * es.slotsPerEpoch + es.firstNormalSlot

def getLastSlotInEpoch : Nat :=
  es.getFirstSlotInEpoch epoch + es.getSlotsInEpoch epoch - 1

end

theorem log2_minimum : log2NextPowerOfTwo MINIMUM_SLOTS_PER_EPOCH = 5 := by decide +kernel

/-- What `custom` builds from at most 2^63 slots in an epoch. -/
structure WellFormed (es : EpochSchedule) : Prop where
  firstNormalSlot_eq : es.firstNormalSlot = 2 ^ (es.firstNormalEpoch + 5) - 32
  firstNormalEpoch_lt : es.firstNormalEpoch + 5 < 64

theorem custom_wellFormed {slotsPerEpoch offset : Nat} {warmup : Bool} {hu : slotsPerEpoch < U64}
    {es : EpochSchedule} (h : custom slotsPerEpoch offset warmup hu = .ok es)
    (hle : slotsPerEpoch ≤ 2 ^ 63) : es.WellFormed := by
  unfold custom at h
  split at h
  · rename_i hmin
    cases h
    have hlog : log2NextPowerOfTwo slotsPerEpoch ≤ 63 := Nat.clog_le_of_le_pow hle
    have hmono : 5 ≤ log2NextPowerOfTwo slotsPerEpoch := by
      exact Nat.clog_mono_right 2 hmin
    cases warmup with
    | false => exact ⟨rfl, show 0 + 5 < 64 by decide⟩
    | true =>
      have hpow : 2 ^ log2NextPowerOfTwo slotsPerEpoch < U64 :=
        (Nat.pow_le_pow_right (by decide) hlog).trans_lt (by decide)
      simp only [if_true, log2_minimum]
      refine ⟨?_, ?_⟩
      · show nextPowerOfTwo slotsPerEpoch - 32 = _
        rw [nextPowerOfTwo, Nat.mod_eq_of_lt hpow, Nat.sub_add_cancel hmono]
      · show log2NextPowerOfTwo slotsPerEpoch - 5 + 5 < 64
        omega
  · cases h

variable {es : EpochSchedule} {epoch : Nat}

theorem pos (es : EpochSchedule) : 0 < es.slotsPerEpoch := by
  have := es.slotsPerEpoch_ge
  simp only [MINIMUM_SLOTS_PER_EPOCH] at this
  omega

theorem getSlotsInEpoch_of_warmup (hwf : es.WellFormed) (h : epoch < es.firstNormalEpoch) :
    es.getSlotsInEpoch epoch = 2 ^ (epoch + 5) := by
  have := hwf.firstNormalEpoch_lt
  have hpow : 2 ^ (epoch + 5) < U64 :=
    (Nat.pow_le_pow_right (by decide) (show epoch + 5 ≤ 63 by omega)).trans_lt (by decide)
  rw [getSlotsInEpoch, if_pos h, log2_minimum, Nat.mod_eq_of_lt hpow]

theorem getSlotsInEpoch_of_normal (h : es.firstNormalEpoch ≤ epoch) :
    es.getSlotsInEpoch epoch = es.slotsPerEpoch := if_neg (by omega)

theorem slotsPerNormalEpoch (es : EpochSchedule) :
    es.getSlotsInEpoch es.firstNormalEpoch = es.slotsPerEpoch := getSlotsInEpoch_of_normal le_rfl

theorem firstSlot_of_le (h : epoch ≤ es.firstNormalEpoch) :
    es.getFirstSlotInEpoch epoch = 2 ^ (epoch + 5) - 32 := by
  rw [getFirstSlotInEpoch, if_pos h, Nat.sub_mul, pow_add]
  rfl

section

variable (hwf : es.WellFormed)
variable {slot slot' : Nat}

include hwf

theorem firstSlot_add (n : Nat) :
    es.getFirstSlotInEpoch (es.firstNormalEpoch + n) =
      n * es.slotsPerEpoch + es.firstNormalSlot := by
  cases n with
  | zero => rw [firstSlot_of_le (by omega), hwf.firstNormalSlot_eq]; simp
  | succ n =>
    rw [getFirstSlotInEpoch]
    simp

theorem firstSlot_succ (epoch : Nat) :
    es.getFirstSlotInEpoch (epoch + 1) =
      es.getFirstSlotInEpoch epoch + es.getSlotsInEpoch epoch := by
  by_cases h : epoch < es.firstNormalEpoch
  · rw [firstSlot_of_le h, firstSlot_of_le h.le, getSlotsInEpoch_of_warmup hwf h]
    have hpow : 32 ≤ 2 ^ (epoch + 5) :=
      Nat.pow_le_pow_right (show 0 < 2 by decide) (show 5 ≤ epoch + 5 by omega)
    rw [pow_succ]
    omega
  · obtain ⟨n, rfl⟩ : ∃ n, epoch = es.firstNormalEpoch + n :=
      ⟨epoch - es.firstNormalEpoch, by omega⟩
    rw [getSlotsInEpoch_of_normal (by omega), Nat.add_assoc, firstSlot_add hwf,
      firstSlot_add hwf, Nat.add_mul]
    omega

theorem firstSlot_mono {e e' : Nat} (h : e ≤ e') :
    es.getFirstSlotInEpoch e ≤ es.getFirstSlotInEpoch e' := by
  induction h with
  | refl => exact le_rfl
  | step _ ih =>
    rw [firstSlot_succ hwf]
    omega

theorem warmup_spec (h : slot < es.firstNormalSlot) :
    ∃ e, (es.getEpochAndSlotIndex slot) = (e, slot - (2 ^ (e + 5) - 32)) ∧ e < es.firstNormalEpoch ∧
      2 ^ (e + 5) - 32 ≤ slot ∧ slot + 32 < 2 ^ (e + 6) := by
  have hslot : slot + 33 ≤ 2 ^ (es.firstNormalEpoch + 5) := by
    have := hwf.firstNormalSlot_eq
    omega
  have hc : 6 ≤ Nat.clog 2 (slot + 33) := by
    calc 6 = Nat.clog 2 33 := by decide +kernel
      _ ≤ Nat.clog 2 (slot + 33) := Nat.clog_mono_right 2 (by omega)
  have hle : slot + 33 ≤ 2 ^ Nat.clog 2 (slot + 33) := Nat.le_pow_clog (by decide) _
  have hlt : 2 ^ (Nat.clog 2 (slot + 33)).pred < slot + 33 :=
    Nat.pow_pred_clog_lt_self (by decide) (by omega)
  have hk : Nat.clog 2 (slot + 33) ≤ es.firstNormalEpoch + 5 := Nat.clog_le_of_le_pow hslot
  obtain ⟨e, he⟩ : ∃ e, Nat.clog 2 (slot + 33) = e + 6 := ⟨Nat.clog 2 (slot + 33) - 6, by omega⟩
  rw [he] at hle hlt hk
  rw [Nat.pred_eq_sub_one, show e + 6 - 1 = e + 5 by omega] at hlt
  refine ⟨e, ?_, by omega, by omega, by omega⟩
  have hepoch : log2NextPowerOfTwo (slot + MINIMUM_SLOTS_PER_EPOCH + 1) = e + 6 := he
  simp only [getEpochAndSlotIndex, if_pos h, hepoch]
  rfl

/-- **A slot is the first slot of its epoch and its index.** -/
theorem first_add_index (slot : Nat) :
    es.getFirstSlotInEpoch (es.getEpochAndSlotIndex slot).1 + (es.getEpochAndSlotIndex slot).2 =
      slot := by
  by_cases h : slot < es.firstNormalSlot
  · obtain ⟨e, heq, hlt, hle, -⟩ := warmup_spec hwf h
    rw [heq, firstSlot_of_le hlt.le]
    omega
  · simp only [getEpochAndSlotIndex, if_neg h]
    have hdiv := Nat.div_add_mod (slot - es.firstNormalSlot) es.slotsPerEpoch
    rw [firstSlot_add hwf, Nat.mul_comm]
    omega

/-- **The index is below the length of the epoch.** -/
theorem index_lt (slot : Nat) :
    (es.getEpochAndSlotIndex slot).2 < es.getSlotsInEpoch (es.getEpochAndSlotIndex slot).1 := by
  by_cases h : slot < es.firstNormalSlot
  · obtain ⟨e, heq, hlt, hle, hup⟩ := warmup_spec hwf h
    rw [heq, getSlotsInEpoch_of_warmup hwf hlt]
    rw [pow_succ] at hup
    omega
  · simp only [getEpochAndSlotIndex, if_neg h]
    rw [getSlotsInEpoch_of_normal (Nat.le_add_right _ _)]
    exact Nat.mod_lt _ es.pos

theorem epoch_mono (h : slot ≤ slot') :
    (es.getEpochAndSlotIndex slot).1 ≤ (es.getEpochAndSlotIndex slot').1 := by
  by_contra hlt
  have hfirst := firstSlot_mono hwf (show (es.getEpochAndSlotIndex slot').1 + 1
    ≤ (es.getEpochAndSlotIndex slot).1 by omega)
  rw [firstSlot_succ hwf] at hfirst
  have := first_add_index hwf slot
  have := first_add_index hwf slot'
  have := index_lt hwf slot'
  omega

theorem index_mono (h : slot ≤ slot')
    (hepoch : (es.getEpochAndSlotIndex slot).1 = (es.getEpochAndSlotIndex slot').1) :
    (es.getEpochAndSlotIndex slot).2 ≤ (es.getEpochAndSlotIndex slot').2 := by
  have := first_add_index hwf slot
  have := first_add_index hwf slot'
  rw [hepoch] at *
  omega

theorem slots_ge (epoch : Nat) : 32 ≤ es.getSlotsInEpoch epoch := by
  by_cases h : epoch < es.firstNormalEpoch
  · rw [getSlotsInEpoch_of_warmup hwf h, pow_add]
    exact Nat.le_mul_of_pos_left _ (Nat.two_pow_pos epoch)
  · rw [getSlotsInEpoch_of_normal (by omega)]
    exact es.slotsPerEpoch_ge

theorem getEpoch_eq (hle : es.getFirstSlotInEpoch epoch ≤ slot)
    (hlt : slot < es.getFirstSlotInEpoch epoch + es.getSlotsInEpoch epoch) :
    es.getEpoch slot = epoch := by
  have hslot := first_add_index hwf slot
  have hindex := index_lt hwf slot
  rw [← firstSlot_succ hwf] at hlt
  rcases lt_trichotomy (es.getEpochAndSlotIndex slot).1 epoch with h | h | h
  · have := firstSlot_mono hwf (Nat.succ_le_of_lt h)
    rw [firstSlot_succ hwf] at this
    omega
  · exact h
  · have := firstSlot_mono hwf (show epoch + 1 ≤ (es.getEpochAndSlotIndex slot).1 from h)
    omega

theorem firstSlot_le (slot : Nat) : es.getFirstSlotInEpoch (es.getEpoch slot) ≤ slot := by
  have := first_add_index hwf slot
  rw [getEpoch]
  omega

theorem lt_firstSlot_add (slot : Nat) :
    slot < es.getFirstSlotInEpoch (es.getEpoch slot) + es.getSlotsInEpoch (es.getEpoch slot) := by
  have := first_add_index hwf slot
  have := index_lt hwf slot
  rw [getEpoch]
  omega

theorem index_eq (slot : Nat) :
    (es.getEpochAndSlotIndex slot).2 = slot - es.getFirstSlotInEpoch (es.getEpoch slot) := by
  have := first_add_index hwf slot
  rw [getEpoch]
  omega

end

/-! ## The leader schedule epoch -/

section LeaderSchedule

variable {slot slot' : Nat}

theorem warmup_leaderEpoch (hwf : es.WellFormed) (h : slot < es.firstNormalSlot) :
    es.getLeaderScheduleEpoch slot = es.getEpoch slot + 1 ∧
      es.getEpoch slot < es.firstNormalEpoch := by
  obtain ⟨e, heq, hlt, -⟩ := warmup_spec hwf h
  simp [getLeaderScheduleEpoch, getEpoch, h, heq, hlt]

variable (hoffset : es.leaderScheduleSlotOffset ≤ es.slotsPerEpoch)
  (hle : es.slotsPerEpoch ≤ 2 ^ 62)
include hoffset hle

theorem normal_leaderEpoch (hslot : slot ≤ 2 ^ 62) (h : es.firstNormalSlot ≤ slot) :
    es.getLeaderScheduleEpoch slot =
    es.firstNormalEpoch + (slot - es.firstNormalSlot + es.leaderScheduleSlotOffset) /
      es.slotsPerEpoch := by
  rw [getLeaderScheduleEpoch, if_neg (by omega), wrapAdd_eq (by simp only [U64]; omega)]

theorem leaderEpoch_mono (hwf : es.WellFormed) (hslot : slot' ≤ 2 ^ 62) (h : slot ≤ slot') :
    es.getLeaderScheduleEpoch slot ≤ es.getLeaderScheduleEpoch slot' := by
  by_cases hs : slot < es.firstNormalSlot
  · obtain ⟨heq, hlt⟩ := warmup_leaderEpoch hwf hs
    by_cases hs' : slot' < es.firstNormalSlot
    · rw [heq, (warmup_leaderEpoch hwf hs').1]
      exact Nat.succ_le_succ (epoch_mono hwf h)
    · rw [normal_leaderEpoch hoffset hle hslot (by omega)]
      exact heq.le.trans (Nat.le_add_right_of_le hlt)
  · rw [normal_leaderEpoch hoffset hle (by omega) (by omega),
      normal_leaderEpoch hoffset hle hslot (by omega)]
    exact Nat.add_le_add_left (Nat.div_le_div_right (by omega)) _

theorem leaderEpoch_le (hwf : es.WellFormed) (hslot : slot ≤ 2 ^ 62) :
    es.getLeaderScheduleEpoch slot ≤ es.getEpoch slot + 1 := by
  by_cases hs : slot < es.firstNormalSlot
  · exact (warmup_leaderEpoch hwf hs).1.le
  · have hdiv : (slot - es.firstNormalSlot + es.leaderScheduleSlotOffset) / es.slotsPerEpoch ≤
        (slot - es.firstNormalSlot) / es.slotsPerEpoch + 1 := by
      rw [← Nat.add_div_right _ es.pos]
      exact Nat.div_le_div_right (by omega)
    rw [normal_leaderEpoch hoffset hle hslot (by omega), getEpoch, getEpochAndSlotIndex, if_neg hs]
    omega

theorem leaderEpoch_succ_le (hwf : es.WellFormed) (hslot : slot < 2 ^ 62) :
    es.getLeaderScheduleEpoch (slot + 1) ≤ es.getLeaderScheduleEpoch slot + 1 := by
  by_cases hs : slot < es.firstNormalSlot
  · -- The next slot is at most in the next epoch.
    have hnext : es.getEpoch (slot + 1) ≤ es.getEpoch slot + 1 := by
      by_contra hlt
      have hfirst := firstSlot_mono hwf (Nat.succ_le_of_lt (Nat.lt_of_not_le hlt))
      have hlen := slots_ge hwf (es.getEpoch slot + 1)
      have := firstSlot_le hwf (slot + 1)
      have := lt_firstSlot_add hwf slot
      rw [firstSlot_succ hwf, firstSlot_succ hwf] at hfirst
      omega
    have := leaderEpoch_le hoffset hle hwf (show slot + 1 ≤ 2 ^ 62 from hslot)
    have := (warmup_leaderEpoch hwf hs).1
    omega
  · rw [normal_leaderEpoch hoffset hle (by omega) (by omega),
      normal_leaderEpoch hoffset hle (by omega) (by omega),
      Nat.add_assoc, ← Nat.add_div_right _ es.pos]
    exact Nat.add_le_add_left (Nat.div_le_div_right (by have := es.pos; omega)) _

end LeaderSchedule

/-- **The epochs are a partition of the slots**, and the leader schedule is of the epoch of a slot
or of the next. -/
theorem custom_partition {slotsPerEpoch offset slot e i : Nat} {warmup : Bool}
    {hu : slotsPerEpoch < U64}
    (h : custom slotsPerEpoch offset warmup hu = .ok es) (hle : slotsPerEpoch ≤ 2 ^ 62)
    (hslot : slot < 2 ^ 62) (hindex : es.getEpochAndSlotIndex slot = (e, i)) :
    es.getFirstSlotInEpoch e + i = slot ∧ i < es.getSlotsInEpoch e ∧
    es.getLastSlotInEpoch e + 1 = es.getFirstSlotInEpoch (e + 1) ∧
      es.getFirstSlotInEpoch (e + 1) < U64 ∧
    (∀ slot' ≤ slot, es.getEpoch slot' ≤ e) ∧
    (offset ≤ slotsPerEpoch →
      (∀ slot' ≤ slot, es.getLeaderScheduleEpoch slot' ≤ es.getLeaderScheduleEpoch slot) ∧
      es.getLeaderScheduleEpoch (slot + 1) ≤ es.getLeaderScheduleEpoch slot + 1 ∧
      e ≤ es.getLeaderScheduleEpoch slot ∧ es.getLeaderScheduleEpoch slot ≤ e + 1) := by
  have hwf := custom_wellFormed h (hle.trans (by decide))
  obtain ⟨rfl, rfl⟩ : es.slotsPerEpoch = slotsPerEpoch ∧ es.leaderScheduleSlotOffset = offset := by
    unfold custom at h
    split at h
    · cases h
      exact ⟨rfl, rfl⟩
    · cases h
  have hfirst := first_add_index hwf slot
  have hlt := index_lt hwf slot
  have hepoch : es.getEpoch slot = e := by rw [getEpoch, hindex]
  rw [hindex] at hfirst hlt
  dsimp only at hfirst hlt
  rw [getLastSlotInEpoch, firstSlot_succ hwf]
  refine ⟨hfirst, hlt, by omega, ?_, fun _ h => hepoch ▸ epoch_mono hwf h, fun hoffset =>
    ⟨fun _ h => leaderEpoch_mono hoffset hle hwf hslot.le h,
      leaderEpoch_succ_le hoffset hle hwf hslot, ?_,
      hepoch ▸ leaderEpoch_le hoffset hle hwf hslot.le⟩⟩
  · have hmax : es.getSlotsInEpoch e ≤ 2 ^ 63 := by
      by_cases he : e < es.firstNormalEpoch
      · have := hwf.firstNormalEpoch_lt
        rw [getSlotsInEpoch_of_warmup hwf he]
        exact Nat.pow_le_pow_right (by decide) (by omega)
      · rw [getSlotsInEpoch_of_normal (by omega)]
        omega
    simp only [U64]
    omega
  · exact hepoch ▸ es.getEpoch_le_getLeaderScheduleEpoch (by simp only [U64]; omega)

/-- Epochs of 100 slots after warm-up epochs of 32 and 64. -/
theorem custom_partition_hundred : ∃ es, custom 100 60 true (by decide) = .ok es ∧
    es.getEpochAndSlotIndex 97 = (2, 1) ∧ es.getFirstSlotInEpoch 2 + 1 = 97 := by
  have h : custom 100 60 true (by decide) = .ok _ := dif_pos (by decide)
  exact ⟨_, h, by decide +kernel,
    (custom_partition h (by decide) (by decide) (by decide +kernel)).1⟩

end Panoptes.Sdk.EpochSchedule
