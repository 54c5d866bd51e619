import Panoptes.ForkChoice.Leaf
import Panoptes.ForkChoice.Batch

/-!
# Merging two trees

`merge` adds the slots of a tree below a leaf of another, from the smallest slot up, and then the
votes.

* `merge_returns` — the slots of the merged tree are those of the two trees.
-/

set_option autoImplicit false

namespace Panoptes.ForkChoice

open Lib Sdk
open Std (ExtTreeMap)

namespace HeaviestSubtreeForkChoice

variable {fc other : HeaviestSubtreeForkChoice} {mergeLeaf : Nat}

/-- The tree while it is merged: the slots of `fc`, and those of `other` that are done. -/
structure Merging (fc other : HeaviestSubtreeForkChoice) (D : Nat → Prop)
    (fc' : HeaviestSubtreeForkChoice) : Prop where
  isTree : fc'.IsTree
  root : fc'.root = fc.root
  mem_slots : ∀ s, s ∈ fc'.slots ↔ s ∈ fc.slots ∨ (s ∈ other.slots ∧ D s)

/-- **Merging a tree** below a slot of another one that is smaller than its root, the two having no
slot in common. -/
theorem merge_returns (o : Overflow) (es : EpochStakes) (htree : fc.IsTree) (hother : other.IsTree)
    (hleaf : mergeLeaf ∈ fc.slots) (hlt : mergeLeaf < other.root)
    (hdisjoint : ∀ s ∈ other.slots, s ∉ fc.slots) : Returns (fc.merge o other mergeLeaf es)
      (fun fc' => fc'.IsTree ∧ fc'.root = fc.root ∧
        ∀ s, s ∈ fc'.slots ↔ s ∈ fc.slots ∨ s ∈ other.slots) o.Aborts := by
  unfold merge
  rw [assert_pos (containsSlot_iff.mpr hleaf)]
  have hcongr : ∀ (D D' : Nat → Prop) (fc' : HeaviestSubtreeForkChoice),
      (∀ s, other.forkInfos[s]? ≠ none → (D s ↔ D' s)) → Merging fc other D fc' →
      Merging fc other D' fc' := by
    intro D D' fc' hD h
    refine ⟨h.isTree, h.root, fun s => (h.mem_slots s).trans ?_⟩
    exact or_congr_right
      (and_congr_right fun hs => hD s (HeaviestSubtreeForkChoice.mem_slots.mp hs))
  refine (returns_foldlM_ascending hcongr ⟨htree, rfl, fun s => by simp⟩
    fun s info fc' hget h => ?_).bind fun fc' h => ?_
  · obtain ⟨htree', hroot, hslots⟩ := h
    obtain ⟨hs, hentry⟩ := entry_of_getElem? hget
    have hnew : s ∉ fc'.slots := by
      rw [hslots]
      rintro (hmem | hmem)
      · exact hdisjoint s hs hmem
      · exact lt_irrefl s hmem.2
    have hparent : info.parent.getD mergeLeaf ∈ fc'.slots ∧ info.parent.getD mergeLeaf < s := by
      rw [← hentry]
      by_cases heq : s = other.root
      · rw [heq, hother.root_parent]
        exact ⟨(hslots _).mpr (.inl hleaf), hlt⟩
      · obtain ⟨p, hp, hpeq, hplt⟩ := hother.parent s hs heq
        rw [hpeq]
        exact ⟨(hslots p).mpr (.inr ⟨hp, hplt⟩), hplt⟩
    obtain ⟨fc'', hrun, htree'', hroot', hslots', -⟩ :=
      addNewLeafSlot_returns hnew hparent.1 htree' hparent.2
    simp only [hrun]
    refine ⟨htree'', hroot'.trans hroot, fun t => ?_⟩
    rw [hslots', Finset.mem_insert, hslots]
    constructor
    · rintro (rfl | hmem | hmem)
      · exact .inr ⟨hs, le_refl _⟩
      · exact .inl hmem
      · exact .inr ⟨hmem.1, hmem.2.le⟩
    · rintro (hmem | ⟨hmem, hle⟩)
      · exact .inr (.inl hmem)
      · rcases eq_or_lt_of_le hle with rfl | hlt'
        · exact .inl rfl
        · exact .inr (.inr ⟨hmem, hlt'⟩)
  · obtain ⟨htree', hroot, hslots⟩ := h
    refine ((addVotes_returns o es htree' _).imp_error fun e he => ⟨he.1, he.2.1⟩).bind
      fun r hr => ?_
    refine ⟨htree'.sameLinks hr.1, hr.1.root.trans hroot, fun s => ?_⟩
    rw [hr.1.slots, hslots]
    simp

end HeaviestSubtreeForkChoice

end Panoptes.ForkChoice
