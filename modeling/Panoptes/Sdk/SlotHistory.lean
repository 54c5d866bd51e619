import Panoptes.Lib.Fault

/-!
# Slot history

`sdk/program/src/slot_history.rs`: a ring of bits that says which of the last `MAX_ENTRIES` slots
were added.

* `SlotHistory.add` — clears the positions of the skipped slots, or the whole ring if it was passed.
* `Exact` — the bits of the window are those of the added slots.

Principal result: `check_exact`, of every increasing run of added slots.
-/

set_option autoImplicit false

namespace Panoptes.Sdk

open Lib List

/-- A ring with one bit for each of the last `MAX_ENTRIES` slots. -/
structure SlotHistory where
  bits : Nat → Bool
  nextSlot : Nat

namespace SlotHistory

inductive Check where
  | future
  | tooOld
  | found
  | notFound
  deriving DecidableEq, Repr

def MAX_ENTRIES : Nat := 1024 * 1024

def default : SlotHistory := ⟨fun position => decide (position = 0), 1⟩

section

variable (history : SlotHistory)

def add (slot : Nat) : SlotHistory :=
  let bits :=
    -- the slot is past the whole ring
    if slot > history.nextSlot ∧ slot - history.nextSlot ≥ MAX_ENTRIES then fun _ => false
    else (List.range' history.nextSlot (slot - history.nextSlot)).foldl
      (fun bits skipped => Function.update bits (skipped % MAX_ENTRIES) false) history.bits
  ⟨Function.update bits (slot % MAX_ENTRIES) true, wrapAdd slot 1⟩

def oldest : Nat := history.nextSlot - MAX_ENTRIES

def newest : Nat := wrapSub history.nextSlot 1

def check (slot : Nat) : Check :=
  if slot > history.newest then .future
  else if slot < history.oldest then .tooOld
  else if history.bits (slot % MAX_ENTRIES) then .found
  else .notFound

end

/-! ## The window -/

variable {history : SlotHistory} {added : List Nat} {last : Nat}

/-- After `last` the history has one bit for each slot of the window, which says whether it was
added. -/
structure Exact (history : SlotHistory) (added : List Nat) (last : Nat) : Prop where
  nextSlot : history.nextSlot = last + 1
  le_last : ∀ s ∈ added, s ≤ last
  bits : ∀ s ≤ last, last < s + MAX_ENTRIES → (history.bits (s % MAX_ENTRIES) = true ↔ s ∈ added)

theorem exact_default : Exact default [0] 0 where
  nextSlot := rfl
  le_last := by simp
  bits := by
    intro s hs _
    obtain rfl := Nat.le_zero.mp hs
    simp [default]

/-- Clearing positions keeps the bits that none of them is. -/
theorem clear_bits (skipped : List Nat) (bits : Nat → Bool) (position : Nat) :
    skipped.foldl (fun bits skipped => Function.update bits (skipped % MAX_ENTRIES) false) bits
      position = true ↔ bits position = true ∧ ∀ k ∈ skipped, k % MAX_ENTRIES ≠ position := by
  induction skipped generalizing bits with
  | nil => simp
  | cons k skipped ih =>
    rw [foldl_cons, ih]
    by_cases hk : position = k % MAX_ENTRIES
    · simp [hk]
    · simp [hk, Ne.symm hk]

theorem Exact.add {slot : Nat} (h : Exact history added last) (hle : last ≤ slot)
    (hfit : slot + 1 < U64) : Exact (history.add slot) (slot :: added) slot where
  nextSlot := Nat.mod_eq_of_lt hfit
  le_last := by
    intro s hs
    rcases mem_cons.mp hs with rfl | hs
    · exact le_rfl
    · exact (h.le_last s hs).trans hle
  bits := by
    intro s hs hwindow
    rcases Nat.eq_or_lt_of_le hs with rfl | hlt
    · simp [SlotHistory.add]
    -- Two slots of one window have different positions.
    have hne : s % MAX_ENTRIES ≠ slot % MAX_ENTRIES := by
      simp only [MAX_ENTRIES] at hwindow ⊢
      omega
    have hnotin : last < s → s ∉ added := fun hlast hmem => absurd (h.le_last s hmem) (by omega)
    simp only [SlotHistory.add, Function.update_of_ne hne, mem_cons, hlt.ne, false_or, h.nextSlot]
    split
    · simp only [Bool.false_eq_true, false_iff]
      exact hnotin (by omega)
    rw [clear_bits]
    rcases Nat.lt_or_ge last s with hlast | hlast
    · simp only [hnotin hlast, iff_false, not_and, not_forall]
      exact fun _ => ⟨s, by rw [mem_range'_1]; omega, by simp⟩
    · have hkeep : ∀ k ∈ range' (last + 1) (slot - (last + 1)), k % MAX_ENTRIES ≠
          s % MAX_ENTRIES := by
        intro k hk
        rw [mem_range'_1] at hk
        simp only [MAX_ENTRIES] at hwindow ⊢
        omega
      rw [and_iff_left hkeep, h.bits s hlast (by omega)]

theorem Exact.foldl_add {slots : List Nat} (hsorted : slots.Pairwise (· < ·))
    (hfit : ∀ s ∈ slots, s + 1 < U64)
    (h : Exact history added last) (hlast : ∀ s ∈ slots, last ≤ s) :
    Exact (slots.foldl SlotHistory.add history) (slots.reverse ++ added)
      (slots.getLast?.getD last) := by
  induction slots generalizing history added last with
  | nil => exact h
  | cons slot slots ih =>
    rw [pairwise_cons] at hsorted
    rw [forall_mem_cons] at hfit hlast
    have hnext := ih hsorted.2 hfit.2 (h.add hlast.1 hfit.1) fun s hs => (hsorted.1 s hs).le
    rw [reverse_cons, append_assoc, getLast?_cons]
    exact hnext

/-- **The history is exact over its window**, for slots whose successor is a `u64`. -/
theorem check_exact (slots : List Nat) (hsorted : slots.Pairwise (· < ·))
    (hfit : ∀ s ∈ slots, s + 1 < U64) (s : Nat) : let history := slots.foldl SlotHistory.add default
    let last := slots.getLast?.getD 0
    (history.check s = .future ↔ last < s) ∧ (history.check s = .tooOld ↔ s + MAX_ENTRIES ≤ last) ∧
      (s ≤ last → last < s + MAX_ENTRIES →
        (history.check s = .found ↔ s = 0 ∨ s ∈ slots) ∧
          (history.check s = .notFound ↔ ¬ (s = 0 ∨ s ∈ slots))) := by
  intro history last
  have h : Exact history (slots.reverse ++ [0]) last := exact_default.foldl_add hsorted hfit
    fun s _ => Nat.zero_le s
  have hlast : last + 1 < U64 := by
    cases hget : slots.getLast? with
    | none => simp [last, hget, U64]
    | some t => simpa [last, hget] using hfit t (mem_of_getLast? hget)
  have hnewest : history.newest = last := by
    rw [newest, h.nextSlot]
    simp only [wrapSub, U64] at hlast ⊢
    omega
  have holdest : history.oldest = last + 1 - MAX_ENTRIES := by rw [oldest, h.nextSlot]
  unfold check
  split
  · simp only [reduceCtorEq, true_iff, false_iff]
    omega
  split
  · simp only [reduceCtorEq, true_iff, false_iff]
    omega
  have hbits := h.bits s (by omega) (by omega)
  rw [mem_append, or_comm] at hbits
  refine ⟨?_, ?_, ?_⟩
  · split <;> simp <;> omega
  · split <;> simp <;> omega
  · split <;> simp_all

theorem check_exact_jump : (check ([5, 2 ^ 21].foldl SlotHistory.add default) 5 = .tooOld) :=
  (check_exact [5, 2 ^ 21] (by decide) (by decide) 5).2.1.mpr (by decide)

/-- **The last slot of all**: its successor wraps to 0, and no slot is too old any more. -/
theorem check_last_slot :
    (default.add (2 ^ 64 - 1)).check 0 = .notFound ∧ 0 + MAX_ENTRIES ≤ 2 ^ 64 - 1 := by
  decide +kernel

end SlotHistory

end Panoptes.Sdk
