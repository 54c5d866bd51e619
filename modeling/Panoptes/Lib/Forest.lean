import Mathlib

/-!
# Forests by parent links

A forest over an ordered type is given by the parent of each node, a parent being smaller than its
child.  Nodes are never listed: what a program knows of the forest is a finite part of it.

* `Forest.IsAncestor` — the strict ancestor relation, the transitive closure of the parent links.
* `Forest.Below` — the nodes of the subtree at a node.
* `Below.iff_child`, `Below.child_unique` — a subtree is its root and the disjoint subtrees at the
  children.
* `subtreeSum` — the sum of a quantity over the nodes of a subtree, which `subtreeSum_eq` splits
  into the share of the root and those of the children.
-/

set_option autoImplicit false

namespace Panoptes.Lib

/-- A forest: every node has at most one parent, which is smaller. -/
structure Forest (α : Type) [LT α] where
  parent : α → Option α
  parent_lt : ∀ {a p : α}, parent a = some p → p < a

namespace Forest

section Order

variable {α : Type} [LT α] (F : Forest α)

/-- `a` is a strict ancestor of `b`. -/
def IsAncestor (a b : α) : Prop := Relation.TransGen (fun p c => F.parent c = some p) a b

/-- `b` is in the subtree at `a`. -/
def Below (a b : α) : Prop := a = b ∨ F.IsAncestor a b

variable {F} {a b c : α}

theorem IsAncestor.of_parent (h : F.parent b = some a) : F.IsAncestor a b :=
  Relation.TransGen.single h

theorem IsAncestor.trans (h₁ : F.IsAncestor a b) (h₂ : F.IsAncestor b c) :
    F.IsAncestor a c := Relation.TransGen.trans h₁ h₂

theorem IsAncestor.cases {a b : α} (h : F.IsAncestor a b) :
    ∃ p, F.parent b = some p ∧ F.Below a p := by
  cases h with
  | single h => exact ⟨a, h, .inl rfl⟩
  | tail h hb => exact ⟨_, hb, .inr h⟩

theorem IsAncestor.cases_child (h : F.IsAncestor a b) : ∃ c, F.parent c = some a ∧ F.Below c b := by
  induction h with
  | single h => exact ⟨_, h, .inl rfl⟩
  | tail _ hb ih =>
    obtain ⟨c, hc, hbelow⟩ := ih
    refine ⟨c, hc, .inr ?_⟩
    rcases hbelow with rfl | hanc
    · exact IsAncestor.of_parent hb
    · exact hanc.trans (IsAncestor.of_parent hb)

theorem Below.refl (a : α) : F.Below a a := .inl rfl

theorem Below.of_parent (h : F.parent b = some a) : F.Below a b :=
  .inr (IsAncestor.of_parent h)

theorem Below.trans (h₁ : F.Below a b) (h₂ : F.Below b c) : F.Below a c := by
  rcases h₁ with rfl | h₁
  · exact h₂
  · rcases h₂ with rfl | h₂
    · exact .inr h₁
    · exact .inr (h₁.trans h₂)

/-- The subtree at a node: the node, and the subtrees at its children. -/
theorem Below.iff_child : F.Below a b ↔ b = a ∨ ∃ c, F.parent c = some a ∧ F.Below c b := by
  constructor
  · rintro (rfl | h)
    · exact .inl rfl
    · exact .inr h.cases_child
  · rintro (rfl | ⟨c, hc, hbelow⟩)
    · exact refl _
    · exact (of_parent hc).trans hbelow

/-- The subtrees that hold a node: the one at the node, and those that hold its parent. -/
theorem Below.iff_parent : F.Below a b ↔ a = b ∨ ∃ p, F.parent b = some p ∧ F.Below a p := by
  constructor
  · rintro (rfl | h)
    · exact .inl rfl
    · exact .inr h.cases
  · rintro (rfl | ⟨p, hp, hbelow⟩)
    · exact refl _
    · exact hbelow.trans (of_parent hp)

theorem Below.mono {G : Forest α} (h : ∀ a p, F.parent a = some p → G.parent a = some p)
    (hb : F.Below a b) : G.Below a b := by
  rcases hb with rfl | hb
  · exact refl a
  · exact .inr (Relation.TransGen.mono (fun p c hp => h c p hp) _ _ hb)

theorem Below.comparable (ha : F.Below a c) (hb : F.Below b c) : F.Below a b ∨ F.Below b a := by
  rcases ha with rfl | ha
  · exact .inr hb
  induction ha with
  | single hc =>
    rcases iff_parent.mp hb with rfl | ⟨p, hp, hbelow⟩
    · exact .inl (of_parent hc)
    · rw [hc] at hp
      cases hp
      exact .inr hbelow
  | tail hanc hc ih =>
    rcases iff_parent.mp hb with rfl | ⟨p, hp, hbelow⟩
    · exact .inl (.inr (hanc.trans (IsAncestor.of_parent hc)))
    · rw [hc] at hp
      cases hp
      exact ih hbelow

end Order

section Preorder

variable {α : Type} [Preorder α] {F : Forest α} {a b : α}

theorem IsAncestor.lt (h : F.IsAncestor a b) : a < b := by
  induction h with
  | single h => exact F.parent_lt h
  | tail _ h ih => exact ih.trans (F.parent_lt h)

theorem Below.le (h : F.Below a b) : a ≤ b := by
  rcases h with rfl | h
  · exact le_refl _
  · exact h.lt.le

theorem Below.not_parent {p : α} (h : F.parent a = some p) : ¬ F.Below a p := fun hb =>
  absurd (lt_of_lt_of_le (F.parent_lt h) hb.le) (lt_irrefl _)

/-- The subtrees at two children of one node have no node in common. -/
theorem Below.child_unique {p c c' : α} (hc : F.parent c = some p) (hc' : F.parent c' = some p)
    (hb : F.Below c b) (hb' : F.Below c' b) : c = c' := by
  rcases hb.comparable hb' with h | h
  · rcases iff_parent.mp h with rfl | ⟨q, hq, hbelow⟩
    · rfl
    · rw [hc'] at hq
      cases hq
      exact absurd hbelow (not_parent hc)
  · rcases iff_parent.mp h with rfl | ⟨q, hq, hbelow⟩
    · rfl
    · rw [hc] at hq
      cases hq
      exact absurd hbelow (not_parent hc')

end Preorder

section Sums

open Classical Below

variable {α : Type} [Preorder α] (F : Forest α)

/-- The sum of `f` over the nodes of `nodes` in the subtree at `a`. -/
noncomputable def subtreeSum (nodes : Finset α) (f : α → Nat) (a : α) : Nat :=
  ∑ b ∈ nodes, if F.Below a b then f b else 0

variable {F} {nodes : Finset α} {f : α → Nat} {a : α}

theorem subtreeSum_congr {g : α → Nat} (h : ∀ b ∈ nodes, F.Below a b → f b = g b) :
    F.subtreeSum nodes f a = F.subtreeSum nodes g a := by
  refine Finset.sum_congr rfl fun b hb => ?_
  by_cases hbelow : F.Below a b
  · rw [if_pos hbelow, if_pos hbelow, h b hb hbelow]
  · rw [if_neg hbelow, if_neg hbelow]

theorem subtreeSum_le : F.subtreeSum nodes f a ≤ ∑ b ∈ nodes, f b := by
  refine Finset.sum_le_sum fun b _ => ?_
  split
  · exact le_refl _
  · exact Nat.zero_le _

/-- **A subtree sum** is the share of the root of the subtree and the sums of the subtrees at its
children. -/
theorem subtreeSum_eq (ha : a ∈ nodes) {children : List α} (hnodup : children.Nodup)
    (hchildren : ∀ c, F.parent c = some a ↔ c ∈ children) :
    F.subtreeSum nodes f a = f a + (children.map (F.subtreeSum nodes f)).sum := by
  have hpoint : ∀ b ∈ nodes, (if F.Below a b then f b else 0) =
      (if b = a then f b else 0) + ∑ c ∈ children.toFinset, if F.Below c b then f b else 0 := by
    intro b _
    by_cases hba : b = a
    · subst hba
      rw [if_pos (refl b), if_pos rfl, Finset.sum_eq_zero, Nat.add_zero]
      intro c hc
      rw [if_neg]
      exact not_parent ((hchildren c).mpr (List.mem_toFinset.mp hc))
    · rw [if_neg hba, Nat.zero_add]
      by_cases hbelow : F.Below a b
      · obtain ⟨c, hc, hcb⟩ := (iff_child.mp hbelow).resolve_left hba
        rw [if_pos hbelow, Finset.sum_eq_single c, if_pos hcb]
        · intro c' hc' hne
          rw [if_neg]
          intro hc'b
          exact hne (child_unique ((hchildren c').mpr (List.mem_toFinset.mp hc')) hc hc'b hcb)
        · intro hmem
          exact absurd (List.mem_toFinset.mpr ((hchildren c).mp hc)) hmem
      · rw [if_neg hbelow, Finset.sum_eq_zero]
        intro c hc
        rw [if_neg]
        intro hcb
        exact hbelow (iff_child.mpr (.inr ⟨c, (hchildren c).mpr (List.mem_toFinset.mp hc), hcb⟩))
  unfold subtreeSum
  rw [Finset.sum_congr rfl hpoint, Finset.sum_add_distrib, Finset.sum_ite_eq' nodes a f, if_pos ha,
    Finset.sum_comm, List.sum_toFinset _ hnodup]

end Sums

end Forest

end Panoptes.Lib
