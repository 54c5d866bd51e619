import Panoptes.ForkChoice.Tree

/-!
# Moving the root

`set_root` removes every slot outside the subtree at the new root, which `subtree_diff` collects;
`add_root_parent` puts a new root above the old one.

* `subtreeDiff_returns` — `subtree_diff` ends and collects the slots of one subtree outside another.
* `setRoot_returns` — the tree that is left is the subtree at the new root, with the same weights
  and best slots.
* `addRootParent_returns` — the tree with a new root above.
-/

set_option autoImplicit false

namespace Panoptes.ForkChoice

open Lib List HeaviestSubtreeForkChoice
open Std (ExtTreeMap ExtTreeSet)

namespace HeaviestSubtreeForkChoice

variable {fc fc' : HeaviestSubtreeForkChoice} {s t p c r : Nat}

/-! ## The difference of two subtrees -/

theorem card_slots (fc : HeaviestSubtreeForkChoice) : fc.slots.card = fc.forkInfos.size := by
  unfold slots
  rw [toFinset_card_of_nodup, ExtTreeMap.length_keys]
  exact ExtTreeMap.nodup_keys

/-- The number of slots in a subtree, which bounds the rounds of `subtree_diff`. -/
noncomputable def subtreeSize (htree : fc.IsTree) (s : Nat) : Nat :=
  htree.forest.subtreeSum fc.slots (fun _ => 1) s

theorem subtreeSize_eq (htree : fc.IsTree) (hs : s ∈ fc.slots) :
    subtreeSize htree s = 1 + ((fc.entry s).children.map (subtreeSize htree)).sum :=
  Forest.subtreeSum_eq hs (htree.nodup s) fun c => (htree.mem_children s c).symm

theorem subtreeSize_le (htree : fc.IsTree) (s : Nat) : subtreeSize htree s ≤ fc.forkInfos.size := by
  rw [← card_slots, Finset.card_eq_sum_ones]
  exact Forest.subtreeSum_le

/-- **The loop of `subtree_diff`** ends and collects the pending subtrees less the one at `root₂`,
below which nothing is ever pending. -/
theorem subtreeDiffLoop_returns (htree : fc.IsTree) (root₂ : Nat) {fuel : Nat} {pending : List Nat}
    (reachable : ExtTreeSet Nat)
    (hpending : ∀ q ∈ pending, q ∈ fc.slots ∧ (htree.forest.Below root₂ q → q = root₂))
    (hfuel : (pending.map (subtreeSize htree)).sum < fuel) :
    ∃ out, subtreeDiffLoop fc.children root₂ fuel pending reachable = .ok out ∧ ∀ s, s ∈ out ↔
      s ∈ reachable ∨ ∃ q ∈ pending, htree.forest.Below q s ∧ ¬ htree.forest.Below root₂ s := by
  induction fuel generalizing pending reachable with
  | zero => omega
  | succ fuel ih =>
    cases pending with
    | nil => exact ⟨reachable, rfl, by simp⟩
    | cons current pending =>
      obtain ⟨hcurrent, hroot⟩ := hpending current (mem_cons_self ..)
      have hrest := fun q hq => hpending q (mem_cons_of_mem current hq)
      rw [map_cons, sum_cons, subtreeSize_eq htree hcurrent] at hfuel
      unfold subtreeDiffLoop
      by_cases heq : current = root₂
      · rw [if_pos heq]
        obtain ⟨out, hout, hiff⟩ := ih reachable hrest (by omega)
        refine ⟨out, hout, fun s => ?_⟩
        rw [hiff, heq]
        simp
      · rw [if_neg heq, children_of_mem hcurrent]
        have hchildren : ∀ q ∈ (fc.entry current).children.reverse ++ pending,
            q ∈ fc.slots ∧ (htree.forest.Below root₂ q → q = root₂) := by
          intro q hq
          rcases mem_append.mp hq with hq | hq
          · have hq' := mem_reverse.mp hq
            refine ⟨(htree.child_lt hq').2.1, fun hbelow => ?_⟩
            rcases Forest.Below.iff_parent.mp hbelow with h | ⟨p, hp, hbelow⟩
            · exact h.symm
            · have hp' : (fc.entry q).parent = some p := hp
              rw [(htree.mem_children current q).mp hq'] at hp'
              cases hp'
              exact absurd (hroot hbelow) heq
          · exact hrest q hq
        obtain ⟨out, hout, hiff⟩ := ih (reachable.insert current) hchildren (by
          rw [map_append, sum_append, map_reverse, sum_reverse]
          omega)
        refine ⟨out, hout, fun s => ?_⟩
        rw [hiff, exists_mem_cons_iff, Forest.Below.iff_child (a := current)]
        constructor
        · rintro (hs | ⟨q, hq, hbelow⟩)
          · rcases mem_insert_set.mp hs with rfl | hs
            · exact .inr (.inl ⟨.inl rfl, fun hbelow => heq (hroot hbelow)⟩)
            · exact .inl hs
          · rcases mem_append.mp hq with hq | hq
            · exact .inr (.inl ⟨.inr ⟨q, (htree.mem_children current q).mp
                (mem_reverse.mp hq), hbelow.1⟩, hbelow.2⟩)
            · exact .inr (.inr ⟨q, hq, hbelow⟩)
        · rintro (hs | ⟨rfl | ⟨q, hq, hbelow⟩, hnot⟩ | ⟨q, hq, hbelow⟩)
          · exact .inl (mem_insert_set.mpr (.inr hs))
          · exact .inl (mem_insert_set.mpr (.inl rfl))
          · exact .inr ⟨q, mem_append_left _ (mem_reverse.mpr
              ((htree.mem_children current q).mpr hq)), hbelow, hnot⟩
          · exact .inr ⟨q, mem_append_right _ hq, hbelow⟩

/-- **`subtree_diff` from the root** collects the slots outside the subtree at `r`. -/
theorem subtreeDiff_returns (htree : fc.IsTree) (hr : r ∈ fc.slots) :
    ∃ out, fc.subtreeDiff fc.root r = .ok out ∧ ∀ s, s ∈ out ↔ s ∈ fc.slots ∧
      ¬ htree.forest.Below r s := by
  have hfuel : ([fc.root].map (subtreeSize htree)).sum < fc.forkInfos.size + 1 := by
    have := subtreeSize_le htree fc.root
    simp only [map_cons, map_nil, sum_cons, sum_nil]
    omega
  obtain ⟨out, hout, hiff⟩ := subtreeDiffLoop_returns htree r ∅
    (fun q hq => by
      rw [mem_singleton.mp hq]
      exact ⟨htree.root_mem, fun hb => le_antisymm (htree.root_le hr) hb.le⟩) hfuel
  refine ⟨out, ?_, fun s => ?_⟩
  · unfold subtreeDiff
    rw [if_pos (containsSlot_iff.mpr htree.root_mem)]
    exact hout
  · rw [hiff]
    constructor
    · rintro (hs | ⟨q, hq, hbelow, hnot⟩)
      · exact absurd hs ExtTreeSet.not_mem_empty
      · rw [mem_singleton.mp hq] at hbelow
        exact ⟨htree.below_mem htree.root_mem hbelow, hnot⟩
    · rintro ⟨hs, hnot⟩
      exact .inr ⟨fc.root, mem_singleton_self _, htree.root_below hs, hnot⟩

/-! ## Setting the root -/

theorem removeSlots_returns {l : List Nat} {m : ExtTreeMap Nat ForkInfo} (hnodup : l.Nodup)
    (hmem : ∀ s ∈ l, m[s]? ≠ none) :
    ∃ m', removeSlots l m = .ok m' ∧ ∀ s, m'[s]? = if s ∈ l then none else m[s]? := by
  induction l generalizing m with
  | nil => exact ⟨m, rfl, by simp⟩
  | cons slot l ih =>
    obtain ⟨hnotin, hnodup⟩ := nodup_cons.mp hnodup
    obtain ⟨info, hinfo⟩ := Option.ne_none_iff_exists'.mp (hmem slot (mem_cons_self ..))
    obtain ⟨m', hm', hget⟩ := ih hnodup (by
      intro s hs
      have hne : s ≠ slot := fun heq => hnotin (heq ▸ hs)
      rw [getElem?_erase_ite, if_neg hne]
      exact hmem s (mem_cons_of_mem slot hs))
    refine ⟨m', ?_, fun s => ?_⟩
    · unfold removeSlots
      rw [hinfo]
      exact hm'
    · rw [hget, getElem?_erase_ite]
      by_cases hs : s = slot
      · simp [hs]
      · simp [hs]

/-- The tree that is left when the root moves to `r`. -/
structure Rerooted (htree : fc.IsTree) (r : Nat) (fc' : HeaviestSubtreeForkChoice) : Prop where
  root : fc'.root = r
  latestVotes : fc'.latestVotes = fc.latestVotes
  mem_slots : ∀ s, s ∈ fc'.slots ↔ htree.forest.Below r s
  entry_root : fc'.entry r = { fc.entry r with parent := none }
  entry : ∀ s ∈ fc'.slots, s ≠ r → fc'.entry s = fc.entry s

theorem setRoot_rerooted (htree : fc.IsTree) (hr : r ∈ fc.slots) :
    ∃ fc', fc.setRoot r = .ok fc' ∧ Rerooted htree r fc' := by
  obtain ⟨out, hout, hiff⟩ := subtreeDiff_returns htree hr
  obtain ⟨m', hm', hget⟩ := removeSlots_returns
    (nodup_toList_set out) fun s hs => mem_slots.mp ((hiff s).mp (ExtTreeSet.mem_toList.mp hs)).1
  have hget' : ∀ s, htree.forest.Below r s → m'[s]? = fc.forkInfos[s]? := by
    intro s hs
    rw [hget, if_neg]
    rw [ExtTreeSet.mem_toList, hiff]
    exact fun h => h.2 hs
  have hrget : m'[r]? = some (fc.entry r) := by
    rw [hget' r (Forest.Below.refl r), getElem?_of_mem hr]
  refine ⟨{ fc with
    forkInfos := m'.insert r { fc.entry r with parent := none }, root := r }, ?_, ?_⟩
  · unfold setRoot
    rw [hout]
    simp only [bind, Except.bind, hm', hrget, expect_some]
  · refine ⟨rfl, rfl, fun s => ?_, ?_, fun s hs hne => ?_⟩
    · rw [mem_slots]
      simp only [getElem?_insert_ite]
      by_cases hs : s = r
      · rw [hs]
        simp [Forest.Below.refl]
      · rw [if_neg hs, hget]
        constructor
        · intro h
          by_contra hnot
          apply h
          split
          · rfl
          · rename_i hout
            rw [ExtTreeSet.mem_toList, hiff] at hout
            exact getElem?_of_not_mem fun hmem => hout ⟨hmem, hnot⟩
        · intro hbelow
          rw [← hget, hget' s hbelow]
          exact mem_slots.mp (htree.below_mem hr hbelow)
    · unfold entry
      rw [getElem?_insert_ite, if_pos rfl]
      rfl
    · have hm : m'[s]? ≠ none := by
        have := mem_slots.mp hs
        simp only [getElem?_insert_ite, if_neg hne] at this
        exact this
      unfold entry
      rw [getElem?_insert_ite, if_neg hne]
      rw [hget] at hm ⊢
      split at hm
      · exact absurd rfl hm
      · rename_i hnot
        rw [if_neg hnot]

namespace Rerooted

variable {htree : fc.IsTree} (h : Rerooted htree r fc') (hr : r ∈ fc.slots)
include h

theorem mem_root : r ∈ fc'.slots := (h.mem_slots r).mpr (Forest.Below.refl r)

theorem parent_eq (s : Nat) :
    (fc'.entry s).parent = some p ↔ htree.forest.Below r p ∧ (fc.entry s).parent = some p := by
  by_cases hs : s = r
  · subst hs
    rw [h.entry_root]
    constructor
    · intro hp
      cases hp
    · rintro ⟨hbelow, hp⟩
      exact absurd hbelow (Forest.Below.not_parent hp)
  · by_cases hmem : s ∈ fc'.slots
    · rw [h.entry s hmem hs]
      refine ⟨fun hp => ⟨?_, hp⟩, fun hp => hp.2⟩
      rcases Forest.Below.iff_parent.mp ((h.mem_slots s).mp hmem) with heq | ⟨q, hq, hbelow⟩
      · exact absurd heq.symm hs
      · have hq' : (fc.entry s).parent = some q := hq
        rw [hp] at hq'
        cases hq'
        exact hbelow
    · rw [entry_of_not_mem hmem]
      constructor
      · intro hp
        cases hp
      · rintro ⟨hbelow, hp⟩
        exact absurd ((h.mem_slots s).mpr (hbelow.trans (Forest.Below.of_parent hp))) hmem

theorem values (hs : s ∈ fc'.slots) : fc'.votedAt s = fc.votedAt s ∧ fc'.weight s = fc.weight s ∧
    (fc'.entry s).bestSlot = (fc.entry s).bestSlot ∧
    (fc'.entry s).children = (fc.entry s).children := by
  unfold votedAt weight
  by_cases hsr : s = r
  · rw [hsr, h.entry_root]
    exact ⟨rfl, rfl, rfl, rfl⟩
  · rw [h.entry s hs hsr]
    exact ⟨rfl, rfl, rfl, rfl⟩

theorem child_mem (hs : s ∈ fc'.slots) (hc : c ∈ (fc.entry s).children) : c ∈ fc'.slots :=
  (h.mem_slots c).mpr (((h.mem_slots s).mp hs).trans
    (Forest.Below.of_parent ((htree.mem_children s c).mp hc)))

theorem isTree : fc'.IsTree where
  root_mem := h.root ▸ h.mem_root
  root_parent := by
    rw [h.root, h.entry_root]
  parent := by
    intro s hs hne
    rw [h.root] at hne
    rcases Forest.Below.iff_parent.mp ((h.mem_slots s).mp hs) with heq | ⟨q, hq, hbelow⟩
    · exact absurd heq.symm hne
    · exact ⟨q, (h.mem_slots q).mpr hbelow, (h.parent_eq s).mpr ⟨hbelow, hq⟩,
        (htree.parent_lt hq).1⟩
  mem_children := by
    intro p c
    rw [h.parent_eq c, ← htree.mem_children, ← h.mem_slots]
    by_cases hp : p ∈ fc'.slots
    · rw [(h.values hp).2.2.2]
      exact ⟨fun hc => ⟨hp, hc⟩, fun hc => hc.2⟩
    · rw [entry_of_not_mem hp]
      exact ⟨fun hc => absurd hc not_mem_nil, fun hc => absurd hc.1 hp⟩
  nodup := by
    intro p
    by_cases hp : p ∈ fc'.slots
    · rw [(h.values hp).2.2.2]
      exact htree.nodup p
    · rw [entry_of_not_mem hp]
      exact nodup_nil

theorem ruledAt (hrule : ∀ s, fc.RuledAt s) (s : Nat) : fc'.RuledAt s := by
  by_cases hs : s ∈ fc'.slots
  · obtain ⟨hat, hweight, hbest, hchildren⟩ := h.values hs
    refine (hrule s).congr hat hweight hbest hchildren fun c hc => ?_
    obtain ⟨-, hweight, hbest, -⟩ := h.values (h.child_mem hs hc)
    exact ⟨hweight, hbest⟩
  · exact ruledAt_of_not_mem hs

end Rerooted

/-- **Setting the root** to a slot of the tree does not panic; the links of the subtree that is left
describe one tree, and the rule at every slot is kept. -/
theorem setRoot_returns (htree : fc.IsTree) (hr : r ∈ fc.slots) :
    ∃ fc', fc.setRoot r = .ok fc' ∧ fc'.IsTree ∧ fc'.root = r ∧ fc'.latestVotes = fc.latestVotes ∧
      (∀ s, s ∈ fc'.slots ↔ htree.forest.Below r s) ∧
        (∀ s ∈ fc'.slots, fc'.votedAt s = fc.votedAt s) ∧
      ((∀ s, fc.RuledAt s) → ∀ s, fc'.RuledAt s) := by
  obtain ⟨fc', hset, h⟩ := setRoot_rerooted htree hr
  exact ⟨fc', hset, h.isTree, h.root, h.latestVotes, h.mem_slots,
    fun s hs => (h.values hs).1, h.ruledAt⟩

/-! ## A parent of the root -/

section RootParent

section

variable (fc : HeaviestSubtreeForkChoice) (p : Nat)

/-- The tree with `p` above the root. -/
def raise : HeaviestSubtreeForkChoice :=
  { (fc.setInfo fc.root { fc.entry fc.root with parent := some p }).setInfo p
      ⟨0, fc.weight fc.root, (fc.entry fc.root).bestSlot, none, [fc.root]⟩ with root := p }

theorem entry_raise (t : Nat) : (fc.raise p).entry t =
    if t = p then ⟨0, fc.weight fc.root, (fc.entry fc.root).bestSlot, none, [fc.root]⟩
    else if t = fc.root then { fc.entry fc.root with parent := some p } else fc.entry t := by
  refine (entry_setInfo _ p t _).trans ?_
  rw [entry_setInfo]

theorem children_raise (t : Nat) :
    ((fc.raise p).entry t).children = if t = p then [fc.root] else (fc.entry t).children := by
  rw [entry_raise]
  by_cases htp : t = p
  · rw [if_pos htp, if_pos htp]
  · rw [if_neg htp]
    split
    · rename_i h
      rw [h]
    · rfl

end

theorem slots_raise (htree : fc.IsTree) : (fc.raise p).slots = insert p fc.slots := by
  refine (slots_setInfo _ p _).trans ?_
  rw [slots_setInfo_of_mem _ htree.root_mem]

variable (htree : fc.IsTree) (hlt : p < fc.root)
include htree hlt

theorem not_mem_of_lt_root : p ∉ fc.slots := fun hp => absurd (htree.root_le hp) (by omega)

theorem parent_raise (t : Nat) : ((fc.raise p).entry t).parent =
    if t = fc.root then some p else (fc.entry t).parent := by
  rw [entry_raise]
  by_cases htp : t = p
  · rw [if_pos htp, if_neg (by omega), htp, entry_of_not_mem (not_mem_of_lt_root htree hlt)]
  · rw [if_neg htp]
    split
    · rfl
    · rfl

theorem isTree_raise : (fc.raise p).IsTree where
  root_mem := by
    rw [slots_raise htree]
    exact Finset.mem_insert_self _ _
  root_parent := by
    have hne : (fc.raise p).root ≠ fc.root := hlt.ne
    rw [parent_raise htree hlt, if_neg hne]
    exact congrArg ForkInfo.parent (entry_of_not_mem (not_mem_of_lt_root htree hlt))
  parent := by
    intro s hs hne
    rw [slots_raise htree] at hs ⊢
    rw [parent_raise htree hlt]
    have hs' : s ∈ fc.slots := (Finset.mem_insert.mp hs).resolve_left hne
    by_cases hroot : s = fc.root
    · rw [if_pos hroot]
      exact ⟨p, Finset.mem_insert_self _ _, rfl, hroot ▸ hlt⟩
    · rw [if_neg hroot]
      obtain ⟨q, hq, hparent, hlt'⟩ := htree.parent s hs' hroot
      exact ⟨q, Finset.mem_insert_of_mem hq, hparent, hlt'⟩
  mem_children := by
    intro q c
    rw [children_raise, parent_raise htree hlt]
    by_cases hc : c = fc.root
    · rw [hc]
      by_cases hq : q = p
      · simp [hq]
      · rw [if_neg hq, htree.mem_children, htree.root_parent]
        simp [Ne.symm hq]
    · rw [if_neg hc, ← htree.mem_children]
      by_cases hq : q = p
      · rw [hq, entry_of_not_mem (not_mem_of_lt_root htree hlt)]
        simp [hc]
      · rw [if_neg hq]
  nodup := by
    intro q
    rw [children_raise]
    split
    · exact nodup_singleton _
    · exact htree.nodup q

/-- **Putting a parent above the root** does not panic, and the links describe one tree. -/
theorem addRootParent_returns : ∃ fc', fc.addRootParent p = .ok fc' ∧ fc'.IsTree ∧ fc'.root = p ∧
    fc'.slots = insert p fc.slots ∧ fc'.latestVotes = fc.latestVotes := by
  refine ⟨fc.raise p, ?_, isTree_raise htree hlt, rfl, slots_raise htree, rfl⟩
  unfold addRootParent
  rw [assert_pos hlt, assert_pos (getElem?_of_not_mem (not_mem_of_lt_root htree hlt)),
    getElem?_of_mem htree.root_mem]
  rfl

end RootParent

end HeaviestSubtreeForkChoice

end Panoptes.ForkChoice
