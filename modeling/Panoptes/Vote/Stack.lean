import Panoptes.Vote.VoteState

/-!
# The lockout stack

What every sequence of `process_slot` calls keeps true of the stack of votes: it has at most
`MAX_LOCKOUT_HISTORY` votes, their slots increase and their confirmation counts decrease from front
to back, and the root lies below all of them.

After votes have expired a count can be larger than the number of votes above it, so the counts are
not the depths; `StackOk` says what is left of that: the count of a vote is at least its depth.

* `StackOk.prefix`, `StackOk.tail`, `StackOk.push` — the three mutations: expiry pops from the back,
  rooting pops from the front, a vote is pushed and the lockouts double.
* `StackInv` — the invariant of a vote state, kept by one vote (`StackInv.processSlot`).
* `processSlots_stack` — **the invariant along every run**, with the root never decreasing.
-/

set_option autoImplicit false

namespace Panoptes.VoteProgram

open Lib Sdk List Lockout

/-! ## Doubling -/

variable {vs : VoteState} {slot : Nat} {kept expired l : List Lockout}

@[simp] theorem length_doubleLockouts (l : List Lockout) :
    (doubleLockouts l).length = l.length := by
  simp [doubleLockouts]

theorem getElem_doubleLockouts (l : List Lockout) (i : Nat) (h : i < (doubleLockouts l).length)
    (h' : i < l.length) :
    (doubleLockouts l)[i].slot = l[i].slot ∧
      (doubleLockouts l)[i].confirmationCount =
        if l.length > i + l[i].confirmationCount then l[i].confirmationCount + 1
        else l[i].confirmationCount := by
  simp only [doubleLockouts, getElem_mapIdx]
  split <;> exact ⟨rfl, rfl⟩

theorem map_slot_doubleLockouts (l : List Lockout) :
    (doubleLockouts l).map (·.slot) = l.map (·.slot) := by
  apply ext_getElem
  · simp
  · intro i h₁ h₂
    simp only [length_map] at h₁ h₂
    simp only [getElem_map]
    exact (getElem_doubleLockouts l i h₁ h₂).1

theorem map_slot_push (below : List Lockout) (slot : Nat) :
    (doubleLockouts (below ++ [new slot])).map (·.slot) = below.map (·.slot) ++ [slot] := by
  rw [map_slot_doubleLockouts, map_append]
  rfl

theorem Voted.lastVotedSlot {vs' : VoteState} {epoch : Nat}
    (h : Voted vs slot epoch kept expired vs') : vs'.lastVotedSlot = some slot := by
  obtain ⟨below, hbelow, -⟩ := h.below
  rw [VoteState.lastVotedSlot, VoteState.lastLockout, ← getLast?_map, hbelow, map_slot_push,
    getLast?_append, getLast?_singleton, Option.some_or]

/-! ## The stack -/

/-- The shape of a stack of votes, oldest first. -/
structure StackOk (votes : List Lockout) : Prop where
  slots : votes.Pairwise fun v w => v.slot < w.slot
  counts : votes.Pairwise fun v w => w.confirmationCount < v.confirmationCount
  depth : ∀ i (h : i < votes.length), votes.length - i ≤ votes[i].confirmationCount
  count_le : ∀ v ∈ votes, v.confirmationCount ≤ MAX_LOCKOUT_HISTORY

theorem StackOk.nil : StackOk [] :=
  ⟨List.Pairwise.nil, List.Pairwise.nil, fun i h => by simp at h, fun v h => by cases h⟩

theorem StackOk.prefix (h : StackOk (kept ++ expired)) : StackOk kept := by
  refine ⟨(pairwise_append.mp h.slots).1, (pairwise_append.mp h.counts).1, ?_, ?_⟩
  · intro i hi
    have hd := h.depth i (by rw [length_append]; omega)
    rw [getElem_append_left hi, length_append] at hd
    omega
  · exact fun v hv => h.count_le v (mem_append_left _ hv)

theorem StackOk.tail {root : Lockout} {rest : List Lockout} (h : StackOk (root :: rest)) :
    StackOk rest := by
  refine ⟨(pairwise_cons.mp h.slots).2, (pairwise_cons.mp h.counts).2, ?_, ?_⟩
  · intro i hi
    have hd := h.depth (i + 1) (by rw [length_cons]; omega)
    simp only [getElem_cons_succ, length_cons] at hd
    omega
  · exact fun v hv => h.count_le v (mem_cons_of_mem _ hv)

/-- The count of a vote after the push of one more: at least its depth, and one more than before
only where the old count was exactly the old depth. -/
theorem count_push (h : StackOk l) (slot i : Nat) (hi : i < l.length)
    (h' : i < (doubleLockouts (l ++ [new slot])).length) :
    (doubleLockouts (l ++ [new slot]))[i].confirmationCount =
      max l[i].confirmationCount (l.length + 1 - i) := by
  have hlen : i < (l ++ [new slot]).length := by simp; omega
  rw [(getElem_doubleLockouts _ i h' hlen).2, getElem_append_left hi]
  have hd := h.depth i hi
  simp only [length_append, length_singleton]
  split <;> omega

theorem count_push_new (slot : Nat) (h' : l.length < (doubleLockouts (l ++ [new slot])).length) :
    (doubleLockouts (l ++ [new slot]))[l.length].confirmationCount = 1 := by
  have hlen : l.length < (l ++ [new slot]).length := by simp
  rw [(getElem_doubleLockouts _ _ h' hlen).2]
  simp [new]

/-- A vote pushed on a stack that is not full, with the doubling of the votes below. -/
theorem StackOk.push (h : StackOk l) (hlen : l.length < MAX_LOCKOUT_HISTORY)
    (hslot : ∀ v ∈ l, v.slot < slot) : StackOk (doubleLockouts (l ++ [new slot])) := by
  have hL : (doubleLockouts (l ++ [new slot])).length = l.length + 1 := by simp
  refine ⟨?_, ?_, ?_, ?_⟩
  · -- the doubling keeps the slots
    have hp : ((l ++ [new slot]).map (·.slot)).Pairwise (· < ·) := by
      rw [map_append, pairwise_append]
      refine ⟨pairwise_map.mpr h.slots, by simp, ?_⟩
      intro a ha b hb
      obtain ⟨v, hv, rfl⟩ := mem_map.mp ha
      simp only [map_cons, map_nil, mem_singleton] at hb
      rw [hb]
      exact hslot v hv
    rw [← map_slot_doubleLockouts] at hp
    exact pairwise_map.mp hp
  · rw [pairwise_iff_getElem]
    intro i j hi hj hij
    rw [count_push h slot i (by omega) hi]
    by_cases hjl : j < l.length
    · rw [count_push h slot j hjl hj]
      have := pairwise_iff_getElem.mp h.counts i j (by omega) hjl hij
      omega
    · have hj' : j = l.length := by omega
      subst hj'
      rw [count_push_new slot hj]
      omega
  · intro i hi
    by_cases hil : i < l.length
    · rw [count_push h slot i hil hi]
      omega
    · have hi' : i = l.length := by omega
      subst hi'
      rw [count_push_new slot hi]
      omega
  · intro v hv
    obtain ⟨i, hi, rfl⟩ := mem_iff_getElem.mp hv
    by_cases hil : i < l.length
    · rw [count_push h slot i hil hi]
      have := h.count_le l[i] (getElem_mem hil)
      omega
    · have hi' : i = l.length := by omega
      subst hi'
      rw [count_push_new slot hi]
      decide

/-! ## The state -/

/-- The invariant of the votes and the root of a vote state. -/
structure StackInv (vs : VoteState) : Prop where
  stack : StackOk vs.votes
  length_le : vs.votes.length ≤ MAX_LOCKOUT_HISTORY
  root_lt : ∀ r, vs.rootSlot = some r → ∀ v ∈ vs.votes, r < v.slot
  root_voted : ∀ r, vs.rootSlot = some r → vs.votes ≠ []

/-- A slot newer than the last vote is newer than all of them. -/
theorem lt_of_last {votes : List Lockout} (h : votes.Pairwise fun v w => v.slot < w.slot)
    (hnew : ∀ last, (votes.getLast?.map (·.slot)) = some last → last < slot) :
    ∀ v ∈ votes, v.slot < slot := by
  intro v hv
  rcases eq_nil_or_concat votes with rfl | ⟨init, last, rfl⟩
  · cases hv
  · rw [concat_eq_append] at *
    have hlast : last.slot < slot := hnew _ (by simp)
    rcases mem_append.mp hv with hv | hv
    · have := (pairwise_append.mp h).2.2 v hv last (by simp)
      omega
    · simp only [mem_singleton] at hv
      rw [hv]
      exact hlast

/-- The root does not decrease from one state to the next. -/
def RootLe (vs vs' : VoteState) : Prop :=
  ∀ r, vs.rootSlot = some r → ∃ r', vs'.rootSlot = some r' ∧ r ≤ r'

theorem RootLe.refl (vs : VoteState) : RootLe vs vs := fun r h => ⟨r, h, Nat.le_refl _⟩

theorem RootLe.trans {vs₁ vs₂ vs₃ : VoteState} (h₁ : RootLe vs₁ vs₂) (h₂ : RootLe vs₂ vs₃) :
    RootLe vs₁ vs₃ := by
  intro r hr
  obtain ⟨r₂, hr₂, hle₂⟩ := h₁ r hr
  obtain ⟨r₃, hr₃, hle₃⟩ := h₂ r₂ hr₂
  exact ⟨r₃, hr₃, hle₂.trans hle₃⟩

theorem mem_slot_doubleLockouts {v : Lockout} (h : v ∈ doubleLockouts l) :
    ∃ w ∈ l, w.slot = v.slot := by
  have hv := mem_map_of_mem (f := fun v : Lockout => v.slot) h
  rw [map_slot_doubleLockouts] at hv
  exact mem_map.mp hv

/-- **One vote keeps the invariant and does not lower the root.** -/
theorem StackInv.processSlot (h : StackInv vs) (slot epoch : Nat) :
    StackInv (vs.processSlot slot epoch) ∧ RootLe vs (vs.processSlot slot epoch) := by
  rcases processSlot_cases vs slot epoch with ⟨-, heq⟩ | ⟨kept, expired, hv⟩
  · rw [heq]
    exact ⟨h, RootLe.refl vs⟩
  have hlt : ∀ v ∈ vs.votes, v.slot < slot := lt_of_last h.stack.slots hv.newer
  have hmem : ∀ v ∈ kept, v ∈ vs.votes := fun v hk => by
    rw [hv.split]
    exact mem_append_left _ hk
  have hkept : StackOk kept := by
    have := h.stack
    rw [hv.split] at this
    exact this.prefix
  have hklen : kept.length ≤ MAX_LOCKOUT_HISTORY := by
    have := h.length_le
    rw [hv.split, length_append] at this
    omega
  rcases hv.result with ⟨hne, heq⟩ | ⟨root, rest, rfl, hfull, heq⟩
  · -- the stack has room: the root stays
    rw [heq]
    refine ⟨⟨hkept.push (by omega) fun v hk => hlt v (hmem v hk), ?_, ?_, ?_⟩, RootLe.refl vs⟩
    · simp only [length_doubleLockouts, length_append, length_singleton]
      omega
    · intro r hr v hv'
      obtain ⟨w, hw, hwv⟩ := mem_slot_doubleLockouts hv'
      rw [← hwv]
      rcases mem_append.mp hw with hw | hw
      · exact h.root_lt r hr w (hmem w hw)
      · obtain ⟨u, hu⟩ := exists_mem_of_ne_nil _ (h.root_voted r hr)
        have h₁ := h.root_lt r hr u hu
        have h₂ := hlt u hu
        simp only [mem_singleton] at hw
        rw [hw]
        exact h₁.trans h₂
    · intro r hr hnil
      have := congrArg List.length hnil
      simp at this
  · -- the stack is full: its oldest vote is the new root
    rw [heq]
    have hrest : ∀ v ∈ rest, root.slot < v.slot := (pairwise_cons.mp hkept.slots).1
    have hrlen : rest.length + 1 = MAX_LOCKOUT_HISTORY := hfull
    refine ⟨⟨hkept.tail.push (by omega) fun v hk => hlt v (hmem v (mem_cons_of_mem _ hk)),
      ?_, ?_, ?_⟩, ?_⟩
    · simp only [length_doubleLockouts, length_append]
      omega
    · intro r hr v hv'
      obtain ⟨w, hw, hwv⟩ := mem_slot_doubleLockouts hv'
      simp only [Option.some.injEq] at hr
      rw [← hwv, ← hr]
      rcases mem_append.mp hw with hw | hw
      · exact hrest w hw
      · simp only [mem_singleton] at hw
        rw [hw]
        exact hlt root (hmem root mem_cons_self)
    · intro r hr hnil
      have := congrArg List.length hnil
      simp at this
    · intro r hr
      exact ⟨root.slot, rfl, (h.root_lt r hr root (hmem root mem_cons_self)).le⟩

def VoteState.processSlots (vs : VoteState) (calls : List (Nat × Nat)) : VoteState :=
  calls.foldl (fun vs call => vs.processSlot call.1 call.2) vs

theorem StackInv.processSlots {vs : VoteState} (h : StackInv vs) :
    ∀ calls : List (Nat × Nat), StackInv (vs.processSlots calls) ∧ RootLe vs (vs.processSlots calls)
  | [] => ⟨h, RootLe.refl vs⟩
  | (slot, epoch) :: calls => by
    obtain ⟨hinv, hroot⟩ := h.processSlot slot epoch
    obtain ⟨hinv', hroot'⟩ := hinv.processSlots calls
    exact ⟨hinv', hroot.trans hroot'⟩

theorem StackInv.empty {vs : VoteState} (hvotes : vs.votes = []) (hroot : vs.rootSlot = none) :
    StackInv vs :=
  ⟨by rw [hvotes]; exact StackOk.nil, by rw [hvotes]; exact Nat.zero_le _,
    (fun r hr => by rw [hroot] at hr; cases hr), (fun r hr => by rw [hroot] at hr; cases hr)⟩

/-- **The stack along every run.**  From an empty stack without a root, every sequence of votes on
arbitrary slots and epochs keeps the stack bounded and ordered, and the root of any state of the
run is at most the root of any later one. -/
theorem processSlots_stack {vs : VoteState} (hvotes : vs.votes = []) (hroot : vs.rootSlot = none)
    (calls later : List (Nat × Nat)) :
    (vs.processSlots calls).votes.length ≤ MAX_LOCKOUT_HISTORY ∧
    ((vs.processSlots calls).votes.Pairwise fun v w => v.slot < w.slot) ∧
    ((vs.processSlots calls).votes.Pairwise fun v w => w.confirmationCount < v.confirmationCount) ∧
    (∀ i (h : i < (vs.processSlots calls).votes.length),
      (vs.processSlots calls).votes.length - i ≤
        (vs.processSlots calls).votes[i].confirmationCount ∧
      (vs.processSlots calls).votes[i].confirmationCount ≤ MAX_LOCKOUT_HISTORY) ∧
    (∀ r, (vs.processSlots calls).rootSlot = some r →
      (∀ v ∈ (vs.processSlots calls).votes, r < v.slot) ∧
      ∃ r', (vs.processSlots (calls ++ later)).rootSlot = some r' ∧ r ≤ r') := by
  have hinv := ((StackInv.empty hvotes hroot).processSlots calls).1
  refine ⟨hinv.length_le, hinv.stack.slots, hinv.stack.counts, fun i h => ⟨hinv.stack.depth i h,
    hinv.stack.count_le _ (getElem_mem h)⟩, fun r hr => ⟨hinv.root_lt r hr, ?_⟩⟩
  have hlater := (hinv.processSlots later).2 r hr
  rwa [VoteState.processSlots, VoteState.processSlots, ← foldl_append] at hlater

theorem processSlots_stack_default :
    VoteState.default.votes = [] ∧ VoteState.default.rootSlot = none ∧
    (VoteState.default.processSlots [(1, 0), (2, 0), (9, 1)]).votes = [⟨9, 1⟩] ∧
    (VoteState.default.processSlots [(1, 0), (2, 0), (9, 1)]).votes.length ≤ MAX_LOCKOUT_HISTORY :=
  ⟨rfl, rfl, by decide, (processSlots_stack rfl rfl [(1, 0), (2, 0), (9, 1)] []).1⟩

end Panoptes.VoteProgram
