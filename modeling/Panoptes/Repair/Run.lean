import Panoptes.Repair.SetRoot
import Panoptes.Repair.Orphans

/-!
# Runs of repair weight

The repair service counts votes, asks for orphans and moves the root, in any order, while the
blockstore learns the parents of more slots.

* `Call`, `Call.run` — the calls of a run, with the blockstore beside the state.
* `Blockstore.Extends` — a blockstore that knows at least the parents another one knows.
* `Call.Allowed`, `Call.Rooted` — roots that do not decrease, and those that are also not unrooted.
* `Bookkeeping.run` — the calls keep the bookkeeping invariant.

Principal result: in every run of rooted calls the bookkeeping invariant holds, and a further such
call can only abort on an overflow of stakes.  A root that is unrooted breaks the invariant.
-/

set_option autoImplicit false

namespace Panoptes.Repair

open Lib Sdk ForkChoice RepairWeight

/-! ## Calls -/

inductive Call where
  | addVotes (votes : List (Nat × List Pubkey)) (es : EpochStakes)
  | getBestOrphans (es : EpochStakes) (maxNewOrphans : Nat)
  | setRoot (newRoot : Nat)
  /-- Not a call: the blockstore gets new shreds. -/
  | learn (blockstore : Blockstore)

abbrev State := Blockstore × RepairWeight

def Call.run (o : Overflow) (state : State) : Call → Except Panic State
  | .addVotes votes es => do
    let repair ← state.2.addVotes o state.1 votes es
    .ok (state.1, repair)
  | .getBestOrphans es maxNewOrphans => do
    let result ← state.2.getBestOrphans o state.1 es maxNewOrphans
    .ok (state.1, result.1)
  | .setRoot newRoot => do
    let repair ← state.2.setRoot newRoot
    .ok (state.1, repair)
  | .learn blockstore => .ok (blockstore, state.2)

/-- Parent links do not change once they are known. -/
def Blockstore.Extends (known blockstore : Blockstore) : Prop :=
  ∀ slot p, known.parent slot = some p → blockstore.parent slot = some p

variable (state : State)

/-- The calls of a run: roots do not decrease, and the blockstore only learns. -/
def Call.Allowed : Call → Prop
  | .setRoot newRoot => state.2.root ≤ newRoot
  | .learn blockstore => state.1.Extends blockstore
  | _ => True

/-- The new root is not a slot known not to descend from the root. -/
def Call.Rooted (call : Call) : Prop :=
  call.Allowed state ∧ match call with
    | .setRoot newRoot => newRoot ∉ state.2.unrootedSlots
    | _ => True

/-- The calls of a run against a blockstore that stays as it is. -/
def Call.AllowedStatic : Call → Prop
  | .learn _ => False
  | call => call.Allowed state

/-- Rooted calls against a blockstore that stays as it is. -/
def Call.RootedStatic : Call → Prop
  | .learn _ => False
  | call => call.Rooted state

instance (state : State) : (call : Call) → Decidable (call.AllowedStatic state)
  | .addVotes _ _ => inferInstanceAs (Decidable True)
  | .getBestOrphans _ _ => inferInstanceAs (Decidable True)
  | .setRoot newRoot => inferInstanceAs (Decidable (state.2.root ≤ newRoot))
  | .learn _ => inferInstanceAs (Decidable False)

instance (state : State) : (call : Call) → Decidable (call.RootedStatic state)
  | .addVotes _ _ => inferInstanceAs (Decidable (True ∧ True))
  | .getBestOrphans _ _ => inferInstanceAs (Decidable (True ∧ True))
  | .setRoot newRoot =>
    inferInstanceAs (Decidable (state.2.root ≤ newRoot ∧ newRoot ∉ state.2.unrootedSlots))
  | .learn _ => inferInstanceAs (Decidable False)

theorem Call.AllowedStatic.allowed {state : State} {call : Call} (h : call.AllowedStatic state) :
    call.Allowed state := by
  cases call with
  | learn => exact h.elim
  | addVotes => exact h
  | getBestOrphans => exact h
  | setRoot => exact h

theorem Call.RootedStatic.rooted {state : State} {call : Call} (h : call.RootedStatic state) :
    call.Rooted state := by
  cases call with
  | learn => exact h.elim
  | addVotes => exact h
  | getBestOrphans => exact h
  | setRoot => exact h

/-! ## The invariant -/

theorem bookkeeping_new (root : Nat) : Bookkeeping (new root) := by
  have htrees : ∀ k : Nat, (new root).trees[k]? =
      if k = root then some (HeaviestSubtreeForkChoice.new root) else none := fun k => by
    unfold new
    simp only [getElem?_insert_ite, Std.ExtTreeMap.getElem?_empty]
  have hslots : ∀ s : Nat, (new root).slotToTree[s]? =
      if s = root then some root else none := fun s => by
    unfold new
    simp only [getElem?_insert_ite, Std.ExtTreeMap.getElem?_empty]
  refine ⟨⟨fun k fc hk => ?_, fun s k => ?_⟩, ?_, fun s k hs => ?_,
    fun s k _ => Finset.notMem_empty s⟩
  · rw [htrees] at hk
    split at hk
    · rename_i heq
      cases hk
      exact ⟨HeaviestSubtreeForkChoice.isTree_new root, heq.symm⟩
    · cases hk
  · rw [hslots, htrees]
    constructor
    · intro hs
      split at hs
      · rename_i heq
        cases hs
        exact ⟨_, if_pos rfl, HeaviestSubtreeForkChoice.mem_slots_new.mpr heq⟩
      · cases hs
    · rintro ⟨fc, hfc, hs⟩
      split at hfc
      · rename_i heq
        cases hfc
        rw [if_pos (HeaviestSubtreeForkChoice.mem_slots_new.mp hs), heq]
      · cases hfc
  · rw [show (new root).root = root from rfl, htrees]
    simp
  · rw [hslots] at hs
    split at hs
    · rename_i heq
      exact heq.ge
    · cases hs

/-- **The calls keep the bookkeeping invariant**, and abort only on an overflow. -/
theorem RepairWeight.Bookkeeping.run {state : State} (h : Bookkeeping state.2)
    (o : Overflow) {call : Call} (hrooted : call.Rooted state) :
    Returns (call.run o state) (fun state' => Bookkeeping state'.2) o.Aborts := by
  cases call with
  | addVotes votes es =>
    exact (addVotes_returns o es h state.1 votes).bind fun repair hrepair => hrepair
  | getBestOrphans es maxNewOrphans =>
    exact (getBestOrphans_returns o es h state.1 maxNewOrphans).bind fun result hresult => hresult
  | setRoot =>
    obtain ⟨repair, hrun, hrepair⟩ := setRoot_returns h hrooted.1 hrooted.2
    simp only [Call.run, hrun]
    exact hrepair
  | learn => exact h

/-- **The bookkeeping invariant holds in every run of rooted calls**: the trees are disjoint,
`slot_to_tree` maps exactly their slots to their roots, there is a tree for the root, and tracked
slots are neither below the root nor unrooted.  A further call returns, or overflows in a build that
checks; no `expect` or `assert` fails, and every loop ends. -/
theorem repairWeight_bookkeeping (o : Overflow) (blockstore : Blockstore)
    (root : Nat) {state : State}
    (h : Lib.Reachable (Call.run o) Call.Rooted (blockstore, new root) state) :
    Bookkeeping state.2 ∧
    (∀ (k₁ k₂ : Nat) (fc₁ fc₂ : HeaviestSubtreeForkChoice), state.2.trees[k₁]? = some fc₁ →
      state.2.trees[k₂]? = some fc₂ → k₁ ≠ k₂ → Disjoint fc₁.slots fc₂.slots) ∧
    ∀ call : Call, call.Rooted state →
      (∃ state', call.run o state = .ok state') ∨
        (call.run o state = .error .overflow ∧ o = .checked) := by
  have hbook : Bookkeeping state.2 :=
    h.invariant (P := fun state => Bookkeeping state.2) (bookkeeping_new root)
      fun state call state' hstate hrooted hrun => (hstate.run o hrooted).of_ok hrun
  refine ⟨hbook, fun k₁ k₂ fc₁ fc₂ hk₁ hk₂ hne => ?_, fun call hrooted => ?_⟩
  · rw [Finset.disjoint_left]
    exact fun s hs₁ hs₂ => hne (hbook.toSynced.disjoint hk₁ hk₂ hs₁ hs₂)
  · have hrun := hbook.run o hrooted
    cases hresult : call.run o state with
    | ok state' => exact .inl ⟨state', rfl⟩
    | error =>
      rw [hresult] at hrun
      exact .inr ⟨by rw [hrun.1], hrun.2⟩

/-! ## A fork and an orphan -/

/-- Slots 1 and 2 descend from 0, and 5 from 4, whose parent is not known. -/
def forkedBlockstore : Blockstore where
  metaOf slot := if slot = 1 ∨ slot = 2 then some ⟨0⟩ else if slot = 5 then some ⟨4⟩ else none
  orphans := [4]
  parent_lt := by
    intro slot slotMeta hpos hmeta _
    split at hmeta
    · cases hmeta
      show 0 < slot
      omega
    · split at hmeta
      · cases hmeta
        show 4 < slot
        omega
      · cases hmeta

/-- Votes for both forks and for the orphan, and then one of the forks is rooted. -/
def forkedCalls : List Call :=
  [.addVotes [(1, [7]), (2, [8]), (5, [9])] oneStake, .getBestOrphans oneStake 10, .setRoot 1]

def forkedState : State :=
  (runCalls (Call.run .checked) Call.RootedStatic (forkedBlockstore, new 0)
    forkedCalls).getD (forkedBlockstore, new 0)

theorem runCalls_forkedCalls : runCalls (Call.run .checked) Call.RootedStatic
    (forkedBlockstore, new 0) forkedCalls = some forkedState :=
  runCalls_eq_some (by decide +kernel)

theorem repairWeight_bookkeeping_forked :
    (forkedState.2.slotToTree.toList = [(1, 1), (4, 4), (5, 4)] ∧
    2 ∈ forkedState.2.unrootedSlots) ∧ Bookkeeping forkedState.2 ∧
    (∀ (k₁ k₂ : Nat) (fc₁ fc₂ : HeaviestSubtreeForkChoice), forkedState.2.trees[k₁]? = some fc₁ →
      forkedState.2.trees[k₂]? = some fc₂ → k₁ ≠ k₂ → Disjoint fc₁.slots fc₂.slots) ∧
    ∀ call : Call, call.Rooted forkedState →
      (∃ state', call.run .checked forkedState = .ok state') ∨
        (call.run .checked forkedState = .error .overflow ∧ Overflow.checked = .checked) :=
  ⟨by decide +kernel, repairWeight_bookkeeping .checked forkedBlockstore 0
    ((Lib.Reachable.start.runCalls runCalls_forkedCalls).mono fun _ _ h => h.rooted)⟩

/-- **A root that is unrooted**: after the root moved to one fork and then to the other, the new
root is tracked and unrooted. -/
theorem repairWeight_unrooted_root : ∃ state : State,
    Lib.Reachable (Call.run .checked) Call.Allowed (forkedBlockstore, new 0) state ∧
      state.2.root = 2 ∧ state.2.slotToTree[2]? = some 2 ∧ 2 ∈ state.2.unrootedSlots := by
  have hstatic : ∃ state : State,
      Lib.Reachable (Call.run .checked) Call.AllowedStatic (forkedBlockstore, new 0) state ∧
        state.2.root = 2 ∧ state.2.slotToTree[2]? = some 2 ∧ 2 ∈ state.2.unrootedSlots :=
    exists_reachable (forkedCalls ++ [.setRoot 2]) (by decide +kernel)
  obtain ⟨state, hreach, hstate⟩ := hstatic
  exact ⟨state, hreach.mono fun _ _ h => h.allowed, hstate⟩

end Panoptes.Repair
