import Panoptes.Lib.Fault

/-!
# Slots, epochs and the clock sysvar

`sdk/program/src/clock.rs` and `sdk/program/src/epoch_schedule.rs`, with the clock that
`Bank::update_clock` writes.  Slots and epochs are `u64`: natural numbers, with `% 2 ^ 64` where an
operation can overflow.

* `EpochSchedule` — built by `custom` only, so it carries the bound `custom` asserts.
* `getEpoch`, `getLeaderScheduleEpoch` — the epoch of a slot, and the epoch whose leader schedule
  is computed at a slot.
* `Clock` — the sysvar.  Its epochs come from an epoch schedule: the leader schedule is not behind
  the epoch, and it is far below `u64::MAX`.  The clock carries both bounds, since the vote program
  adds one to the leader schedule epoch and takes it to be later than the epoch.
* `getLeaderScheduleEpoch_lt`, `getEpoch_le_getLeaderScheduleEpoch` — the bounds, for every
  schedule.
-/

set_option autoImplicit false

namespace Panoptes.Sdk

open Lib

/-- A 32-byte account address. -/
abbrev Pubkey := BitVec 256

instance : LawfulBEq Pubkey := inferInstance

instance : Std.TransOrd Pubkey := inferInstance

/-- A 32-byte hash. -/
abbrev Hash := BitVec 256

/-- An entry of the `SlotHashes` sysvar: a slot and the hash of its bank. -/
abbrev SlotHash := Nat × Hash

def MINIMUM_SLOTS_PER_EPOCH : Nat := 32
def MAX_LEADER_SCHEDULE_EPOCH_OFFSET : Nat := 3

/-! ## The epoch schedule -/

/-- `n.next_power_of_two().trailing_zeros()`. -/
def log2NextPowerOfTwo (n : Nat) : Nat := Nat.clog 2 n

/-- `n.next_power_of_two()`; a release build returns 0 where the power does not fit. -/
def nextPowerOfTwo (n : Nat) : Nat := 2 ^ log2NextPowerOfTwo n % U64

structure EpochSchedule where
  slotsPerEpoch : Nat
  leaderScheduleSlotOffset : Nat
  warmup : Bool
  firstNormalEpoch : Nat
  firstNormalSlot : Nat
  slotsPerEpoch_ge : MINIMUM_SLOTS_PER_EPOCH ≤ slotsPerEpoch
  firstNormalEpoch_le : firstNormalEpoch ≤ 64

/-- Epochs of `n` slots from the first on. -/
def EpochSchedule.withoutWarmup (n : Nat) (h : MINIMUM_SLOTS_PER_EPOCH ≤ n) : EpochSchedule :=
  ⟨n, n, false, 0, 0, h, Nat.zero_le _⟩

def EpochSchedule.shortest : EpochSchedule := withoutWarmup 32 le_rfl

theorem log2NextPowerOfTwo_le {n : Nat} (h : n < U64) : log2NextPowerOfTwo n ≤ 64 :=
  Nat.clog_le_of_le_pow (by simp only [U64] at h; omega)

/-- `EpochSchedule::custom`, for a `u64` number of slots per epoch. -/
def EpochSchedule.custom (slotsPerEpoch leaderScheduleSlotOffset : Nat) (warmup : Bool)
    (hu : slotsPerEpoch < U64) : Except Panic EpochSchedule :=
  if h : MINIMUM_SLOTS_PER_EPOCH ≤ slotsPerEpoch then
    .ok {
      slotsPerEpoch, leaderScheduleSlotOffset, warmup
      firstNormalEpoch :=
        if warmup then
          log2NextPowerOfTwo slotsPerEpoch - log2NextPowerOfTwo MINIMUM_SLOTS_PER_EPOCH
        else 0
      firstNormalSlot :=
        if warmup then nextPowerOfTwo slotsPerEpoch - MINIMUM_SLOTS_PER_EPOCH else 0
      slotsPerEpoch_ge := h
      firstNormalEpoch_le := by
        have := log2NextPowerOfTwo_le hu
        split <;> omega }
  else .error .assertion

namespace EpochSchedule

variable (es : EpochSchedule)

/-- `get_epoch_and_slot_index`.  Warm-up epoch `e` has `2 ^ (e + 5)` slots. -/
def getEpochAndSlotIndex (slot : Nat) : Nat × Nat :=
  if slot < es.firstNormalSlot then
    let epoch := log2NextPowerOfTwo (slot + MINIMUM_SLOTS_PER_EPOCH + 1)
      - log2NextPowerOfTwo MINIMUM_SLOTS_PER_EPOCH - 1
    let epochLen := 2 ^ (epoch + log2NextPowerOfTwo MINIMUM_SLOTS_PER_EPOCH)
    (epoch, slot - (epochLen - MINIMUM_SLOTS_PER_EPOCH))
  else
    (es.firstNormalEpoch + (slot - es.firstNormalSlot) / es.slotsPerEpoch,
      (slot - es.firstNormalSlot) % es.slotsPerEpoch)

def getEpoch (slot : Nat) : Nat := (es.getEpochAndSlotIndex slot).1

def getLeaderScheduleEpoch (slot : Nat) : Nat :=
  if slot < es.firstNormalSlot then (es.getEpochAndSlotIndex slot).1 + 1
  else es.firstNormalEpoch
    + wrapAdd (slot - es.firstNormalSlot) es.leaderScheduleSlotOffset / es.slotsPerEpoch

/-- **The leader schedule epoch of a slot leaves room for one more.** -/
theorem getLeaderScheduleEpoch_lt {slot : Nat} (h : slot < U64) :
    es.getLeaderScheduleEpoch slot + 1 < U64 := by
  unfold getLeaderScheduleEpoch
  split
  · rename_i hs
    have hc : log2NextPowerOfTwo (slot + MINIMUM_SLOTS_PER_EPOCH + 1) ≤ 65 :=
      Nat.clog_le_of_le_pow (by simp only [U64] at h; simp only [MINIMUM_SLOTS_PER_EPOCH]; omega)
    simp only [getEpochAndSlotIndex, if_pos hs, U64]
    omega
  · have hmod : wrapAdd (slot - es.firstNormalSlot) es.leaderScheduleSlotOffset < U64 :=
      Nat.mod_lt _ (by decide)
    have hdiv : wrapAdd (slot - es.firstNormalSlot) es.leaderScheduleSlotOffset
        / es.slotsPerEpoch ≤ U64 / MINIMUM_SLOTS_PER_EPOCH :=
      (Nat.div_le_div_right hmod.le).trans (Nat.div_le_div_left es.slotsPerEpoch_ge (by decide))
    have hfirst := es.firstNormalEpoch_le
    have hU : U64 / MINIMUM_SLOTS_PER_EPOCH + 66 < U64 := by decide
    omega

/-- **The leader schedule is not behind the epoch.** -/
theorem getEpoch_le_getLeaderScheduleEpoch {slot : Nat}
    (h : slot + es.leaderScheduleSlotOffset < U64) :
    es.getEpoch slot ≤ es.getLeaderScheduleEpoch slot := by
  unfold getEpoch getLeaderScheduleEpoch
  by_cases hs : slot < es.firstNormalSlot
  · rw [if_pos hs]
    exact Nat.le_succ _
  · rw [if_neg hs, getEpochAndSlotIndex, if_neg hs, wrapAdd_eq (by omega)]
    exact Nat.add_le_add_left (Nat.div_le_div_right (Nat.le_add_right _ _)) _

end EpochSchedule

/-! ## The clock -/

/-- The `Clock` sysvar. -/
structure Clock where
  slot : Nat
  epoch : Nat
  leaderScheduleEpoch : Nat
  unixTimestamp : Int
  epoch_le : epoch ≤ leaderScheduleEpoch
  leaderScheduleEpoch_lt : leaderScheduleEpoch + 1 < U64

/-- A clock in the first epoch. -/
def Clock.early (slot : Nat) (unixTimestamp : Int) : Clock :=
  ⟨slot, 0, 0, unixTimestamp, le_rfl, by decide⟩

/-- The clock `Bank::update_clock` writes for a bank at `slot`. -/
def EpochSchedule.clock (es : EpochSchedule) (slot : Nat) (unixTimestamp : Int)
    (h : slot + es.leaderScheduleSlotOffset < U64) : Clock where
  slot := slot
  epoch := es.getEpoch slot
  leaderScheduleEpoch := es.getLeaderScheduleEpoch slot
  unixTimestamp := unixTimestamp
  epoch_le := es.getEpoch_le_getLeaderScheduleEpoch h
  leaderScheduleEpoch_lt := es.getLeaderScheduleEpoch_lt (by omega)

end Panoptes.Sdk
