import Panoptes.Lib.Forest
import Panoptes.Lib.SortedMap
import Panoptes.ForkChoice.Model

/-!
# The tree of a fork choice

The links of a fork choice describe one tree, and the weights and best slots in it obey a rule at
each slot that mentions only the slot and its children.

* `IsTree` — the parent and children links describe one tree at the root.
* `RuledAt` — the stake voted in a subtree is the stake voted at its root and in the subtrees of the
  children, and the best slot is that of the best child.
* `BestPath` — the walk from a slot to the best child until a leaf is reached.
* `entry_unique` — in a tree, the rule determines the weights and the best slots from the stakes
  voted at the slots.

A slot that is not tracked counts as a leaf without stake (`entry`), so that the rule need not ask
whether a slot is tracked.
-/

set_option autoImplicit false

namespace Panoptes.ForkChoice

open Lib Forest.Below
open Std (ExtTreeMap)

namespace HeaviestSubtreeForkChoice

/-! ## Entries -/

variable (fc : HeaviestSubtreeForkChoice)

def slots : Finset Nat := fc.forkInfos.keys.toFinset

def entry (s : Nat) : ForkInfo :=
  fc.forkInfos[s]?.getD ⟨0, 0, s, none, []⟩

/-- The stake voted in the subtree at a slot. -/
def weight (s : Nat) : Nat := (fc.entry s).stakeVotedSubtree

def votedAt (s : Nat) : Nat := (fc.entry s).stakeVotedAt

variable {fc fc' : HeaviestSubtreeForkChoice} {s t p c : Nat}

theorem mem_slots : s ∈ fc.slots ↔ fc.forkInfos[s]? ≠ none := mem_keys_toFinset

theorem containsSlot_iff : fc.containsSlot s = true ↔ s ∈ fc.slots := by
  unfold containsSlot
  rw [mem_slots, Option.isSome_iff_ne_none]

theorem getElem?_of_mem (h : s ∈ fc.slots) : fc.forkInfos[s]? = some (fc.entry s) := by
  obtain ⟨info, hinfo⟩ := Option.ne_none_iff_exists'.mp (mem_slots.mp h)
  unfold entry
  rw [hinfo]
  rfl

theorem getElem?_of_not_mem (h : s ∉ fc.slots) : fc.forkInfos[s]? = none :=
  not_not.mp (mt mem_slots.mpr h)

theorem entry_of_getElem? {info : ForkInfo} (h : fc.forkInfos[s]? = some info) :
    s ∈ fc.slots ∧ fc.entry s = info := by
  refine ⟨mem_slots.mpr (by rw [h]; simp), ?_⟩
  unfold entry
  rw [h]
  rfl

theorem entry_of_not_mem (h : s ∉ fc.slots) : fc.entry s = ⟨0, 0, s, none, []⟩ := by
  unfold entry
  rw [getElem?_of_not_mem h]
  rfl

section

variable (h : s ∈ fc.slots)
include h

theorem stakeVotedSubtree_of_mem : fc.stakeVotedSubtree s = some (fc.weight s) := by
  unfold stakeVotedSubtree
  rw [getElem?_of_mem h]
  rfl

theorem stakeVotedAt_of_mem : fc.stakeVotedAt s = some (fc.votedAt s) := by
  unfold stakeVotedAt
  rw [getElem?_of_mem h]
  rfl

theorem bestSlot_of_mem : fc.bestSlot s = some (fc.entry s).bestSlot := by
  unfold bestSlot
  rw [getElem?_of_mem h]
  rfl

theorem children_of_mem : fc.children s = some (fc.entry s).children := by
  unfold children
  rw [getElem?_of_mem h]
  rfl

end

section

variable (fc : HeaviestSubtreeForkChoice)

theorem parent_eq (s : Nat) : fc.parent s = (fc.entry s).parent := by
  unfold parent
  by_cases h : s ∈ fc.slots
  · rw [getElem?_of_mem h]
    rfl
  · rw [getElem?_of_not_mem h, entry_of_not_mem h]
    rfl

theorem entry_setInfo (s t : Nat) (info : ForkInfo) :
    (fc.setInfo s info).entry t = if t = s then info else fc.entry t := by
  unfold entry setInfo
  rw [getElem?_insert_ite]
  split
  · rfl
  · rfl

theorem entry_setInfo_self (s : Nat) (info : ForkInfo) : (fc.setInfo s info).entry s = info := by
  rw [entry_setInfo, if_pos rfl]

end

theorem entry_setInfo_of_ne (info : ForkInfo) (h : t ≠ s) :
    (fc.setInfo s info).entry t = fc.entry t := by
  rw [entry_setInfo, if_neg h]

theorem slots_setInfo (fc : HeaviestSubtreeForkChoice) (s : Nat) (info : ForkInfo) :
    (fc.setInfo s info).slots = insert s fc.slots := by
  ext t
  rw [mem_slots, Finset.mem_insert, mem_slots]
  unfold setInfo
  rw [getElem?_insert_ite]
  by_cases h : t = s
  · simp [h]
  · simp [h]

theorem slots_setInfo_of_mem (info : ForkInfo) (h : s ∈ fc.slots) :
    (fc.setInfo s info).slots = fc.slots := by
  rw [slots_setInfo, Finset.insert_eq_of_mem h]

theorem forkInfos_ext (hslots : fc.slots = fc'.slots) (hentry : ∀ s, fc.entry s = fc'.entry s) :
    fc.forkInfos = fc'.forkInfos := by
  apply ExtTreeMap.ext_getElem?
  intro s
  by_cases h : s ∈ fc.slots
  · rw [getElem?_of_mem h, getElem?_of_mem (hslots ▸ h), hentry]
  · rw [getElem?_of_not_mem h, getElem?_of_not_mem (hslots ▸ h)]

/-! ## Links -/

/-- **The parent and children links describe one tree at the root**: every slot but the root has a
parent in the tree, which is smaller, and the children of a slot are the slots with that parent. -/
structure IsTree (fc : HeaviestSubtreeForkChoice) : Prop where
  root_mem : fc.root ∈ fc.slots
  root_parent : (fc.entry fc.root).parent = none
  parent : ∀ s ∈ fc.slots, s ≠ fc.root → ∃ p ∈ fc.slots, (fc.entry s).parent = some p ∧ p < s
  mem_children : ∀ p c, c ∈ (fc.entry p).children ↔ (fc.entry c).parent = some p
  nodup : ∀ p, (fc.entry p).children.Nodup

structure SameLinks (fc fc' : HeaviestSubtreeForkChoice) : Prop where
  root : fc'.root = fc.root
  slots : fc'.slots = fc.slots
  parent : ∀ s, (fc'.entry s).parent = (fc.entry s).parent
  children : ∀ s, (fc'.entry s).children = (fc.entry s).children

theorem SameLinks.refl (fc : HeaviestSubtreeForkChoice) : SameLinks fc fc :=
  ⟨rfl, rfl, fun _ => rfl, fun _ => rfl⟩

theorem SameLinks.trans {fc'' : HeaviestSubtreeForkChoice} (h : SameLinks fc fc')
    (h' : SameLinks fc' fc'') : SameLinks fc fc'' :=
  ⟨h'.root.trans h.root, h'.slots.trans h.slots, fun s => (h'.parent s).trans (h.parent s),
    fun s => (h'.children s).trans (h.children s)⟩

theorem SameLinks.setInfo {info : ForkInfo} (hs : s ∈ fc.slots)
    (hparent : info.parent = (fc.entry s).parent)
    (hchildren : info.children = (fc.entry s).children) : SameLinks fc (fc.setInfo s info) := by
  refine ⟨rfl, slots_setInfo_of_mem info hs, fun t => ?_, fun t => ?_⟩
  · rw [entry_setInfo]
    split
    · rename_i h
      rw [h, hparent]
    · rfl
  · rw [entry_setInfo]
    split
    · rename_i h
      rw [h, hchildren]
    · rfl

namespace IsTree

section

variable (h : fc.IsTree)
include h

theorem sameLinks (hsame : SameLinks fc fc') : fc'.IsTree where
  root_mem := by
    rw [hsame.root, hsame.slots]
    exact h.root_mem
  root_parent := by
    rw [hsame.root, hsame.parent]
    exact h.root_parent
  parent := by
    rw [hsame.root, hsame.slots]
    intro s
    rw [hsame.parent]
    exact h.parent s
  mem_children := by
    intro p c
    rw [hsame.children, hsame.parent]
    exact h.mem_children p c
  nodup := by
    intro p
    rw [hsame.children]
    exact h.nodup p

theorem parent_lt (hp : (fc.entry s).parent = some p) : p < s ∧ s ∈ fc.slots ∧ p ∈ fc.slots := by
  have hs : s ∈ fc.slots := by
    by_contra hs
    rw [entry_of_not_mem hs] at hp
    cases hp
  have hroot : s ≠ fc.root := by
    rintro rfl
    rw [h.root_parent] at hp
    cases hp
  obtain ⟨q, hq, hparent, hlt⟩ := h.parent s hs hroot
  rw [hp] at hparent
  cases hparent
  exact ⟨hlt, hs, hq⟩

theorem child_lt (hc : c ∈ (fc.entry p).children) : p < c ∧ c ∈ fc.slots ∧ p ∈ fc.slots :=
  h.parent_lt ((h.mem_children p c).mp hc)

def forest : Forest Nat := ⟨fun s => (fc.entry s).parent, fun hp => (h.parent_lt hp).1⟩

theorem below_mem (hs : s ∈ fc.slots) (hb : h.forest.Below s t) : t ∈ fc.slots := by
  rcases iff_parent.mp hb with rfl | ⟨p, hp, -⟩
  · exact hs
  · exact (h.parent_lt hp).2.1

theorem root_below (hs : s ∈ fc.slots) : h.forest.Below fc.root s := by
  induction s using Nat.strong_induction_on with
  | _ s ih =>
    by_cases hroot : s = fc.root
    · exact .inl hroot.symm
    · obtain ⟨p, hp, hparent, hlt⟩ := h.parent s hs hroot
      exact (ih p hlt hp).trans (of_parent hparent)

theorem root_le (hs : s ∈ fc.slots) : fc.root ≤ s := (h.root_below hs).le

/-- Induction from the leaves up: a slot may assume the property of its children. -/
theorem induction_children {P : Nat → Prop}
    (hstep : ∀ s, (∀ c ∈ (fc.entry s).children, P c) → P s) (s : Nat) : P s := by
  -- children are greater slots, and there is a greatest slot in the tree
  have hmain : ∀ n s, fc.slots.sup id - s < n → P s := by
    intro n
    induction n with
    | zero =>
      omega
    | succ n ih =>
      intro s hlt
      refine hstep s fun c hc => ih c ?_
      obtain ⟨hlt', hmem, -⟩ := h.child_lt hc
      have hle : c ≤ fc.slots.sup id := Finset.le_sup (f := id) hmem
      omega
  exact hmain _ s (Nat.lt_succ_self _)

end

end IsTree

theorem entry_new (root s : Nat) : (new root).entry s = ⟨0, 0, s, none, []⟩ := by
  unfold entry new
  rw [getElem?_insert_ite]
  split
  · rename_i h
    rw [h]
    rfl
  · simp

theorem mem_slots_new {root : Nat} : s ∈ (new root).slots ↔ s = root := by
  rw [mem_slots]
  unfold new
  simp only [getElem?_insert_ite]
  by_cases h : s = root
  · simp [h]
  · simp [h]

theorem isTree_new (root : Nat) : (new root).IsTree where
  root_mem := mem_slots_new.mpr rfl
  root_parent := by
    rw [entry_new]
  parent := by
    intro s hs hne
    exact absurd (mem_slots_new.mp hs) hne
  mem_children := by
    intro p c
    rw [entry_new, entry_new]
    simp
  nodup := by
    intro p
    rw [entry_new]
    exact List.nodup_nil

/-! ## Weights and best slots -/

/-- `c` has the greatest weight among the children, and is the smallest slot of that weight. -/
def BestChild (w : Nat → Nat) (children : List Nat) (c : Nat) : Prop :=
  c ∈ children ∧ ∀ c' ∈ children, w c' < w c ∨ (w c' = w c ∧ c ≤ c')

theorem BestChild.unique {w : Nat → Nat} {children : List Nat} {c c' : Nat}
    (h : BestChild w children c) (h' : BestChild w children c') : c = c' := by
  have h₁ := h.2 c' h'.1
  have h₂ := h'.2 c h.1
  omega

theorem BestChild.congr {w w' : Nat → Nat} {children : List Nat} {c : Nat}
    (h : BestChild w children c) (hw : ∀ c ∈ children, w' c = w c) : BestChild w' children c := by
  refine ⟨h.1, fun c' hc' => ?_⟩
  rw [hw c h.1, hw c' hc']
  exact h.2 c' hc'

/-- The rule for the best slot: a leaf is its own best slot, another slot has that of its best
child. -/
def BestAt (fc : HeaviestSubtreeForkChoice) (s : Nat) : Prop :=
  ((fc.entry s).children = [] ∧ (fc.entry s).bestSlot = s) ∨
    ∃ c, BestChild fc.weight (fc.entry s).children c ∧ (fc.entry c).bestSlot = (fc.entry s).bestSlot

/-- **The rule at a slot**: what its weight and best slot are, given those of the children. -/
structure RuledAt (fc : HeaviestSubtreeForkChoice) (s : Nat) : Prop where
  weight : fc.weight s = fc.votedAt s + ((fc.entry s).children.map fc.weight).sum
  best : fc.BestAt s

/-- The walk from a slot to the best child until a leaf is reached. -/
inductive BestPath (fc : HeaviestSubtreeForkChoice) : Nat → Nat → Prop where
  | leaf {s : Nat} (h : (fc.entry s).children = []) : BestPath fc s s
  | step {s c leaf : Nat} (h : BestChild fc.weight (fc.entry s).children c)
    (path : BestPath fc c leaf) :
      BestPath fc s leaf

theorem BestAt.congr (h : fc.BestAt s) (hchildren : (fc'.entry s).children = (fc.entry s).children)
    (hbest : (fc'.entry s).bestSlot = (fc.entry s).bestSlot) (hc : ∀ c ∈ (fc.entry s).children,
      fc'.weight c = fc.weight c ∧ (fc'.entry c).bestSlot = (fc.entry c).bestSlot) :
    fc'.BestAt s := by
  unfold BestAt
  rw [hchildren, hbest]
  rcases h with h | ⟨c, hchild, hbestc⟩
  · exact .inl h
  · exact .inr ⟨c, hchild.congr fun c' hc' => (hc c' hc').1, (hc c hchild.1).2.trans hbestc⟩

/-- The rule at a slot depends on the slot and its children only. -/
theorem RuledAt.congr (h : fc.RuledAt s) (hat : fc'.votedAt s = fc.votedAt s)
    (hweight : fc'.weight s = fc.weight s) (hbest : (fc'.entry s).bestSlot = (fc.entry s).bestSlot)
    (hchildren : (fc'.entry s).children = (fc.entry s).children) (hc : ∀ c ∈ (fc.entry s).children,
      fc'.weight c = fc.weight c ∧ (fc'.entry c).bestSlot = (fc.entry c).bestSlot) :
    fc'.RuledAt s := by
  refine ⟨?_, h.best.congr hchildren hbest hc⟩
  rw [hweight, hat, hchildren, List.map_congr_left fun c hmem => (hc c hmem).1]
  exact h.weight

theorem ruledAt_of_not_mem (h : s ∉ fc.slots) : fc.RuledAt s := by
  have hentry := entry_of_not_mem h
  refine ⟨?_, .inl ?_⟩
  · unfold HeaviestSubtreeForkChoice.weight votedAt
    rw [hentry]
    rfl
  · rw [hentry]
    exact ⟨rfl, rfl⟩

/-- Where the rule holds in a whole subtree, its weight is the stake voted in it. -/
theorem weight_eq_subtreeSum (h : fc.IsTree) (hs : s ∈ fc.slots)
    (hrule : ∀ t, h.forest.Below s t → fc.RuledAt t) :
    fc.weight s = h.forest.subtreeSum fc.slots fc.votedAt s := by
  induction s using h.induction_children with
  | _ s ih =>
    rw [(hrule s (refl s)).weight, Forest.subtreeSum_eq hs (h.nodup s) fun c =>
      (h.mem_children s c).symm]
    congr 2
    refine List.map_congr_left fun c hc => ?_
    have hparent := (h.mem_children s c).mp hc
    exact ih c hc (h.child_lt hc).2.1 fun t ht =>
      hrule t ((of_parent hparent).trans ht)

theorem bestSlot_below (h : fc.IsTree) (hrule : ∀ s, fc.BestAt s) (s : Nat) :
    h.forest.Below s (fc.entry s).bestSlot := by
  induction s using h.induction_children with
  | _ s ih =>
    rcases hrule s with ⟨-, hbest⟩ | ⟨c, hchild, hbest⟩
    · rw [hbest]
      exact refl s
    · rw [← hbest]
      exact (of_parent ((h.mem_children s c).mp hchild.1)).trans (ih c hchild.1)

theorem bestPath (h : fc.IsTree) (hrule : ∀ s, fc.BestAt s) (s : Nat) :
    BestPath fc s (fc.entry s).bestSlot := by
  induction s using h.induction_children with
  | _ s ih =>
    rcases hrule s with ⟨hleaf, hbest⟩ | ⟨c, hchild, hbest⟩
    · rw [hbest]
      exact BestPath.leaf hleaf
    · rw [← hbest]
      exact BestPath.step hchild (ih c hchild.1)

/-- **The rule determines the weights and best slots** from the tree and the stakes voted at its
slots. -/
theorem entry_unique (h : fc.IsTree) (hsame : SameLinks fc fc')
    (hat : ∀ s, fc'.votedAt s = fc.votedAt s)
    (hrule : ∀ s, fc.RuledAt s) (hrule' : ∀ s, fc'.RuledAt s) (s : Nat) :
    fc'.entry s = fc.entry s := by
  have hweight : ∀ s, fc'.weight s = fc.weight s := by
    intro s
    induction s using h.induction_children with
    | _ s ih =>
      rw [(hrule s).weight, (hrule' s).weight, hat, hsame.children, List.map_congr_left ih]
  have hbest : (fc'.entry s).bestSlot = (fc.entry s).bestSlot := by
    induction s using h.induction_children with
    | _ s ih =>
      have hrule's := (hrule' s).best
      unfold BestAt at hrule's
      rw [hsame.children] at hrule's
      rcases (hrule s).best with ⟨hleaf, hbest⟩ | ⟨c, hchild, hbest⟩
      · rcases hrule's with ⟨-, hbest'⟩ | ⟨c', hchild', -⟩
        · rw [hbest, hbest']
        · rw [hleaf] at hchild'
          exact absurd hchild'.1 List.not_mem_nil
      · rcases hrule's with ⟨hleaf', -⟩ | ⟨c', hchild', hbest'⟩
        · rw [hleaf'] at hchild
          exact absurd hchild.1 List.not_mem_nil
        · obtain rfl := hchild.unique (hchild'.congr fun c _ => (hweight c).symm)
          rw [← hbest, ← hbest', ih c hchild.1]
  cases hentry : fc.entry s with
  | mk votedAt votedSubtree best parent children =>
    cases hentry' : fc'.entry s with
    | mk =>
      have h₁ := hat s
      have h₂ := hweight s
      have h₃ := hsame.parent s
      have h₄ := hsame.children s
      simp only [HeaviestSubtreeForkChoice.votedAt, weight, hentry, hentry'] at h₁ h₂ h₃ h₄ hbest
      rw [h₁, h₂, h₃, h₄, hbest]

end HeaviestSubtreeForkChoice

end Panoptes.ForkChoice
