import Panoptes.ForkChoice.Run
import Panoptes.ForkChoice.Merge
import Panoptes.Repair.Model

/-!
# The two maps of repair weight

`trees` and `slot_to_tree` are updated by hand, in several steps, by every operation.

* `Synced` — the trees are trees at their keys, and `slot_to_tree` maps exactly their slots.
* `Bookkeeping` — synced, with a tree for the root, no tracked slot below the root and none among
  the unrooted slots.
* `Synced.combine` — one tree takes the place of two others: what every operation but a purge comes
  down to.
* `removeTreeSlots_returns`, `renameTreeRoot_returns`, `purgeTree_returns` — the steps on
  `slot_to_tree`.
-/

set_option autoImplicit false

namespace Panoptes.Repair

open Lib Sdk ForkChoice HeaviestSubtreeForkChoice
open Std (ExtTreeMap)

namespace RepairWeight

variable {repair repair' : RepairWeight} {fc fc' : HeaviestSubtreeForkChoice} {s k k₁ k₂ min : Nat}

/-! ## Invariants -/

/-- **The maps agree**: each tree is a tree with its key as root, and `slot_to_tree` maps exactly
the slots of the trees, each to the key of the tree that contains it. -/
structure Synced (repair : RepairWeight) : Prop where
  tree : ∀ (k : Nat) (fc : HeaviestSubtreeForkChoice), repair.trees[k]? = some fc →
    fc.IsTree ∧ fc.root = k
  slot : ∀ s k : Nat, repair.slotToTree[s]? = some k ↔
    ∃ fc : HeaviestSubtreeForkChoice, repair.trees[k]? = some fc ∧ s ∈ fc.slots

/-- **The bookkeeping invariant.** -/
structure Bookkeeping (repair : RepairWeight) : Prop extends Synced repair where
  root_mem : repair.trees[repair.root]? ≠ none
  root_le : ∀ s k : Nat, repair.slotToTree[s]? = some k → repair.root ≤ s
  rooted : ∀ s k : Nat, repair.slotToTree[s]? = some k → s ∉ repair.unrootedSlots

section

variable (h : Synced repair)
include h

theorem Synced.disjoint (h₁ : repair.trees[k₁]? = some fc)
    (h₂ : repair.trees[k₂]? = some fc') (hs₁ : s ∈ fc.slots) (hs₂ : s ∈ fc'.slots) : k₁ = k₂ := by
  have hk₁ := (h.slot s k₁).mpr ⟨fc, h₁, hs₁⟩
  have hk₂ := (h.slot s k₂).mpr ⟨fc', h₂, hs₂⟩
  rw [hk₁] at hk₂
  exact Option.some.inj hk₂

theorem Synced.key (hk : repair.trees[k]? = some fc) : repair.slotToTree[k]? = some k := by
  obtain ⟨htree, hroot⟩ := h.tree k fc hk
  exact (h.slot k k).mpr ⟨fc, hk, hroot ▸ htree.root_mem⟩

theorem Synced.getElem?_of_mem (hk : repair.trees[k]? = some fc) :
    repair.slotToTree[s]? = some k ↔ s ∈ fc.slots := by
  rw [h.slot]
  refine ⟨fun ⟨fc', hfc', hs⟩ => ?_, fun hs => ⟨fc, hk, hs⟩⟩
  rw [hk] at hfc'
  cases hfc'
  exact hs

theorem Synced.trees_none (hs : repair.slotToTree[s]? = none) : repair.trees[s]? = none := by
  cases hget : repair.trees[s]? with
  | none => rfl
  | some fc =>
    rw [h.key hget] at hs
    cases hs

end

theorem Bookkeeping.not_unrooted (h : Bookkeeping repair) (hs : repair.slotToTree[s]? = some k) :
    repair.isUnrootedSlot s = false := by
  unfold isUnrootedSlot
  rw [decide_eq_false_iff_not]
  rintro (hlt | hmem)
  · exact absurd (h.root_le s k hs) (by omega)
  · exact h.rooted s k hs hmem

theorem Bookkeeping.untracked (h : Bookkeeping repair) (hs : repair.isUnrootedSlot s = true) :
    repair.slotToTree[s]? = none := by
  cases hget : repair.slotToTree[s]? with
  | none => rfl
  | some k =>
    rw [h.not_unrooted hget] at hs
    cases hs

theorem isUnrootedSlot_eq_false :
    repair.isUnrootedSlot s = false ↔ repair.root ≤ s ∧ s ∉ repair.unrootedSlots := by
  unfold isUnrootedSlot
  rw [decide_eq_false_iff_not, not_or, not_lt]

/-- **One tree in the place of two**: the tree at `k₂` becomes `fc`, the one at `k₁` goes away.  The
slots of `fc` were in these trees or new; those of the two trees that it does not have are
dropped. -/
theorem Synced.combine (h : Synced repair) (k₁ : Nat) (hfc : fc.IsTree) (hroot : fc.root = k₂)
    (htrees : ∀ k, repair'.trees[k]? =
      if k = k₂ then some fc else if k = k₁ then none else repair.trees[k]?)
    (hslots : ∀ s, repair'.slotToTree[s]? = if s ∈ fc.slots then some k₂
      else if repair.slotToTree[s]? = some k₁ ∨ repair.slotToTree[s]? = some k₂ then none
      else repair.slotToTree[s]?)
    (hcover : ∀ s ∈ fc.slots, ∀ k, repair.slotToTree[s]? = some k → k = k₁ ∨ k = k₂) :
    Synced repair' where
  tree := by
    intro k fc' hk
    rw [htrees] at hk
    split at hk
    · rename_i heq
      cases hk
      exact ⟨hfc, hroot.trans heq.symm⟩
    · split at hk
      · cases hk
      · exact h.tree k fc' hk
  slot := by
    intro s k
    constructor
    · intro hs
      rw [hslots] at hs
      split at hs
      · rename_i hmem
        cases hs
        exact ⟨fc, by rw [htrees, if_pos rfl], hmem⟩
      · obtain ⟨hnot, hs⟩ := Option.ite_none_left_eq_some.mp hs
        obtain ⟨fc', hfc', hmem⟩ := (h.slot s k).mp hs
        push Not at hnot
        have hk₁ : k ≠ k₁ := fun heq => hnot.1 (heq ▸ hs)
        have hk₂ : k ≠ k₂ := fun heq => hnot.2 (heq ▸ hs)
        exact ⟨fc', by rw [htrees, if_neg hk₂, if_neg hk₁, hfc'], hmem⟩
    · rintro ⟨fc', hfc', hmem⟩
      rw [htrees] at hfc'
      rw [hslots]
      split at hfc'
      · rename_i heq
        cases hfc'
        rw [if_pos hmem, heq]
      · rename_i hk₂
        obtain ⟨hk₁, hfc'⟩ := Option.ite_none_left_eq_some.mp hfc'
        have hs := (h.slot s k).mpr ⟨fc', hfc', hmem⟩
        rw [if_neg fun hin => (hcover s hin k hs).elim hk₁ hk₂, hs, if_neg]
        rintro (heq | heq)
        · exact hk₁ (Option.some.inj heq)
        · exact hk₂ (Option.some.inj heq)

/-- A tree gets slots that were not tracked. -/
theorem Synced.extend (h : Synced repair) (hfc : fc.IsTree) (hroot : fc.root = k)
    {map : ExtTreeMap Nat Nat}
    (hmap : ∀ s : Nat, map[s]? = if s ∈ fc.slots then some k else repair.slotToTree[s]?)
    (hold : ∀ s : Nat, repair.slotToTree[s]? = some k → s ∈ fc.slots)
    (hnew : ∀ s ∈ fc.slots, repair.slotToTree[s]? = some k ∨ repair.slotToTree[s]? = none) :
    Synced { repair with trees := repair.trees.insert k fc, slotToTree := map } := by
  refine h.combine k hfc hroot (fun k' => ?_) (fun s => ?_) fun s hs k' hk' => ?_
  · simp only [getElem?_insert_ite]
    split
    · rfl
    · rfl
  · simp only [hmap]
    by_cases hs : s ∈ fc.slots
    · rw [if_pos hs, if_pos hs]
    · rw [if_neg hs, if_neg hs, if_neg]
      rintro (heq | heq)
      · exact hs (hold s heq)
      · exact hs (hold s heq)
  · rcases hnew s hs with heq | heq
    · rw [heq] at hk'
      exact .inl (Option.some.inj hk').symm
    · rw [heq] at hk'
      cases hk'

/-! ## New trees -/

def withNewTree (repair : RepairWeight) (s : Nat) : RepairWeight :=
  { repair with
    slotToTree := repair.slotToTree.insert s s
    trees := repair.trees.insert s (HeaviestSubtreeForkChoice.new s) }

theorem withNewTree_trees_self (repair : RepairWeight) (s : Nat) :
    (repair.withNewTree s).trees[s]? = some (HeaviestSubtreeForkChoice.new s) := by
  unfold withNewTree
  simp only [getElem?_insert_ite, if_true]

theorem withNewTree_trees_of_ne (hk : k ≠ s) :
    (repair.withNewTree s).trees[k]? = repair.trees[k]? := by
  unfold withNewTree
  simp only [getElem?_insert_ite, if_neg hk]

theorem withNewTree_trees_ne_none (s : Nat) (h : repair.trees[k]? ≠ none) :
    (repair.withNewTree s).trees[k]? ≠ none := by
  by_cases hk : k = s
  · rw [hk, withNewTree_trees_self]
    simp
  · rw [withNewTree_trees_of_ne hk]
    exact h

theorem withNewTree_slotToTree (repair : RepairWeight) (s t : Nat) :
    (repair.withNewTree s).slotToTree[t]? = if t = s then some s else repair.slotToTree[t]? :=
  getElem?_insert_ite ..

section

variable (h : Synced repair) (hs : repair.slotToTree[s]? = none)
include h hs

theorem Synced.not_key {t : Nat} : repair.slotToTree[t]? ≠ some s := by
  intro ht
  obtain ⟨fc, hfc, -⟩ := (h.slot t s).mp ht
  rw [h.trees_none hs] at hfc
  cases hfc

theorem insertNewTree_eq : repair.insertNewTree s = .ok (repair.withNewTree s) := by
  unfold insertNewTree
  rw [assert_pos (by rw [h.trees_none hs]; rfl)]
  rfl

theorem Synced.withNewTree : Synced (repair.withNewTree s) := by
  refine h.extend (HeaviestSubtreeForkChoice.isTree_new s)
    (show (new s).root = s from rfl) (fun t => ?_) (fun t ht => ?_)
    fun t ht => ?_
  · rw [getElem?_insert_ite, if_congr mem_slots_new rfl rfl]
  · exact absurd ht (h.not_key hs)
  · rw [mem_slots_new.mp ht]
    exact .inr hs

end

/-! ## Steps on `slot_to_tree` -/

/-- `remove_tree_slots` drops tracked slots and keeps those from `min` on as unrooted. -/
theorem removeTreeSlots_returns {l : List Nat} (hnodup : l.Nodup)
    (htracked : ∀ s ∈ l, repair.slotToTree[s]? ≠ none) :
    ∃ repair', repair.removeTreeSlots l min = .ok repair' ∧ repair'.trees = repair.trees ∧
      repair'.root = repair.root ∧
      (∀ s, repair'.slotToTree[s]? = if s ∈ l then none else repair.slotToTree[s]?) ∧
      ∀ s, s ∈ repair'.unrootedSlots ↔ s ∈ repair.unrootedSlots ∨ (s ∈ l ∧ min ≤ s) := by
  unfold removeTreeSlots
  induction l generalizing repair with
  | nil => exact ⟨repair, rfl, rfl, rfl, by simp, by simp⟩
  | cons slot l ih =>
    obtain ⟨hnotin, hnodup⟩ := List.nodup_cons.mp hnodup
    obtain ⟨k, hk⟩ := Option.ne_none_iff_exists'.mp (htracked slot (List.mem_cons_self ..))
    have hstep : repair.removeTreeSlot min slot = .ok { repair with
        slotToTree := repair.slotToTree.erase slot
        unrootedSlots := if slot ≥ min then insert slot repair.unrootedSlots
          else repair.unrootedSlots } := by
      unfold removeTreeSlot
      rw [hk]
      rfl
    rw [List.foldlM_cons, hstep]
    obtain ⟨repair', hrun, htrees, hroot, hslots, hunrooted⟩ := @ih { repair with
        slotToTree := repair.slotToTree.erase slot
        unrootedSlots := if slot ≥ min then insert slot repair.unrootedSlots
          else repair.unrootedSlots }
      hnodup fun s hs => by
        have hne : s ≠ slot := fun heq => hnotin (heq ▸ hs)
        simp only [getElem?_erase_ite, if_neg hne]
        exact htracked s (List.mem_cons_of_mem slot hs)
    refine ⟨repair', hrun, htrees, hroot, fun s => ?_, fun s => ?_⟩
    · rw [hslots]
      simp only [getElem?_erase_ite]
      by_cases hs : s = slot
      · simp [hs]
      · simp [hs]
    · rw [hunrooted]
      by_cases hmin : min ≤ slot
      · simp only [hmin, if_true, Finset.mem_insert, List.mem_cons]
        constructor
        · rintro ((rfl | h) | h)
          · exact .inr ⟨.inl rfl, hmin⟩
          · exact .inl h
          · exact .inr ⟨.inr h.1, h.2⟩
        · rintro (h | ⟨rfl | h, hle⟩)
          · exact .inl (.inr h)
          · exact .inl (.inl rfl)
          · exact .inr ⟨h, hle⟩
      · simp only [hmin, List.mem_cons]
        constructor
        · rintro (h | h)
          · exact .inl h
          · exact .inr ⟨.inr h.1, h.2⟩
        · rintro (h | ⟨rfl | h, hle⟩)
          · exact .inl h
          · exact absurd hle hmin
          · exact .inr ⟨h, hle⟩

/-- `rename_tree_root` maps the slots of a tree to another key. -/
theorem renameTreeRoot_returns (fc : HeaviestSubtreeForkChoice)
    (htracked : ∀ s ∈ fc.slots, repair.slotToTree[s]? ≠ none) (k : Nat) :
    ∃ map, repair.renameTreeRoot fc k = .ok { repair with slotToTree := map } ∧
      ∀ s, map[s]? = if s ∈ fc.slots then some k else repair.slotToTree[s]? := by
  have hloop : ∀ (l : List Nat) (repair : RepairWeight), (∀ s ∈ l, repair.slotToTree[s]? ≠ none) →
      ∃ map, l.foldlM (renameTreeSlot k) repair = .ok { repair with slotToTree := map } ∧
        ∀ s, map[s]? = if s ∈ l then some k else repair.slotToTree[s]? := by
    intro l
    induction l with
    | nil => exact fun repair _ => ⟨repair.slotToTree, rfl, by simp⟩
    | cons slot l ih =>
      intro repair htracked
      obtain ⟨old, hold⟩ := Option.ne_none_iff_exists'.mp (htracked slot (List.mem_cons_self ..))
      have hstep : renameTreeSlot k repair slot =
          .ok { repair with slotToTree := repair.slotToTree.insert slot k } := by
        unfold renameTreeSlot
        rw [hold]
        rfl
      obtain ⟨map, hrun, hmap⟩ := ih { repair with slotToTree := repair.slotToTree.insert slot k }
        fun s hs => by
          simp only [getElem?_insert_ite]
          split
          · simp
          · exact htracked s (List.mem_cons_of_mem slot hs)
      refine ⟨map, ?_, fun s => ?_⟩
      · rw [List.foldlM_cons, hstep]
        exact hrun
      · rw [hmap]
        simp only [getElem?_insert_ite]
        by_cases hs : s = slot
        · simp [hs]
        · simp [hs]
  have hmem : ∀ s, s ∈ fc.forkInfos.keys ↔ s ∈ fc.slots := fun s => List.mem_toFinset.symm
  obtain ⟨map, hrun, hmap⟩ := hloop fc.forkInfos.keys repair fun s hs => htracked s ((hmem s).mp hs)
  refine ⟨map, hrun, fun s => ?_⟩
  rw [hmap, if_congr (hmem s) rfl rfl]

structure Purged (repair : RepairWeight) (k min : Nat) (repair' : RepairWeight) : Prop where
  root : repair'.root = repair.root
  trees : ∀ k' : Nat, repair'.trees[k']? = if k' = k then none else repair.trees[k']?
  slotToTree : ∀ s : Nat, repair'.slotToTree[s]? =
    if repair.slotToTree[s]? = some k then none else repair.slotToTree[s]?
  unrootedSlots : ∀ s : Nat, s ∈ repair'.unrootedSlots ↔
    s ∈ repair.unrootedSlots ∨ (repair.slotToTree[s]? = some k ∧ min ≤ s)

theorem Purged.synced (h : Synced repair) (hpurged : Purged repair k min repair') :
    Synced repair' where
  tree := by
    intro k' fc hk'
    rw [hpurged.trees] at hk'
    split at hk'
    · cases hk'
    · exact h.tree k' fc hk'
  slot := by
    intro s k'
    rw [hpurged.slotToTree]
    constructor
    · intro hs
      split at hs
      · cases hs
      · rename_i hnot
        obtain ⟨fc, hfc, hmem⟩ := (h.slot s k').mp hs
        have hne : k' ≠ k := fun heq => hnot (heq ▸ hs)
        exact ⟨fc, by rw [hpurged.trees, if_neg hne, hfc], hmem⟩
    · rintro ⟨fc, hfc, hmem⟩
      rw [hpurged.trees] at hfc
      split at hfc
      · cases hfc
      · rename_i hne
        have hs := (h.slot s k').mpr ⟨fc, hfc, hmem⟩
        rw [hs, if_neg fun heq => hne (Option.some.inj heq)]

theorem purgeTree_returns (h : Synced repair) (hk : repair.trees[k]? = some fc) (min : Nat) :
    ∃ repair', repair.purgeTree min k = .ok repair' ∧ Purged repair k min repair' := by
  have hmem : ∀ s, s ∈ fc.forkInfos.keys ↔ repair.slotToTree[s]? = some k := fun s => by
    rw [h.getElem?_of_mem hk]
    exact List.mem_toFinset.symm
  obtain ⟨repair', hrun, htrees, hroot, hslots, hunrooted⟩ :=
    @removeTreeSlots_returns { repair with trees := repair.trees.erase k } min fc.forkInfos.keys
      ExtTreeMap.nodup_keys fun s hs => by
        rw [(hmem s).mp hs]
        simp
  refine ⟨repair', ?_, hroot, fun k' => ?_, fun s => ?_, fun s => ?_⟩
  · unfold purgeTree
    rw [hk]
    exact hrun
  · rw [htrees]
    exact getElem?_erase_ite ..
  · rw [hslots]
    exact if_congr (hmem s) rfl rfl
  · rw [hunrooted]
    exact or_congr_right (and_congr_left' (hmem s))

end RepairWeight

end Panoptes.Repair
