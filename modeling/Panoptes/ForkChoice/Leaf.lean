import Panoptes.ForkChoice.Tree

/-!
# Adding a leaf

`add_new_leaf_slot` hangs a slot below its parent and, when the new leaf is the best child there,
makes it the best slot of every ancestor whose best slot was that of the parent.

* `propagateLoop_returns` — the walk up the tree ends, and restores the rule for best slots.
* `addNewLeafSlot_returns` — a new slot below a slot of the tree is added without a panic; the
  result is a tree, and the rule holds in it if it did before.
-/

set_option autoImplicit false

namespace Panoptes.ForkChoice

open Lib List
open Std (ExtTreeMap)

namespace HeaviestSubtreeForkChoice

variable {fc fc' : HeaviestSubtreeForkChoice} {s t p c slot leaf old a : Nat} {F : Forest Nat}

/-! ## The best child -/

theorem isBestChildLoop_eq (weight : Nat) (siblings : List Nat) (h : ∀ c ∈ siblings, c ∈ fc.slots) :
    ∃ best, fc.isBestChildLoop s weight siblings = .ok best ∧
      (best = true ↔ ∀ c ∈ siblings, fc.weight c < weight ∨ (fc.weight c = weight ∧ s ≤ c)) := by
  induction siblings with
  | nil => exact ⟨true, rfl, by simp⟩
  | cons c rest ih =>
    obtain ⟨best, hrest, hiff⟩ := ih fun c' hc' => h c' (mem_cons_of_mem c hc')
    have hweight := stakeVotedSubtree_of_mem (h c (mem_cons_self ..))
    unfold isBestChildLoop
    rw [hweight]
    simp only [expect_some, bind, Except.bind]
    split
    · refine ⟨false, rfl, ?_⟩
      simp only [forall_mem_cons]
      constructor
      · intro h
        cases h
      · omega
    · refine ⟨best, hrest, ?_⟩
      rw [hiff, forall_mem_cons]
      constructor
      · intro hbest
        exact ⟨by omega, hbest⟩
      · rintro ⟨-, hbest⟩
        exact hbest

theorem isBestChild_eq (h : fc.IsTree) (hp : (fc.entry s).parent = some p) :
    ∃ best, fc.isBestChild s = .ok best ∧
      (best = true ↔ BestChild fc.weight (fc.entry p).children s) := by
  obtain ⟨-, hs, hpmem⟩ := h.parent_lt hp
  obtain ⟨best, hloop, hiff⟩ := @isBestChildLoop_eq fc s (fc.weight s)
    (fc.entry p).children fun c hc => (h.child_lt hc).2.1
  refine ⟨best, ?_, ?_⟩
  · unfold isBestChild
    rw [stakeVotedSubtree_of_mem hs, parent_eq, hp]
    simp only
    rw [children_of_mem hpmem]
    exact hloop
  · rw [hiff]
    exact ⟨fun hbest => ⟨(h.mem_children p s).mpr hp, hbest⟩, fun hbest => hbest.2⟩

/-! ## Propagation -/

/-- Two states that differ in the best slots only. -/
structure SameWeights (fc fc' : HeaviestSubtreeForkChoice) : Prop extends SameLinks fc fc' where
  latestVotes : fc'.latestVotes = fc.latestVotes
  votedAt : ∀ s, fc'.votedAt s = fc.votedAt s
  weight : ∀ s, fc'.weight s = fc.weight s

theorem SameWeights.refl (fc : HeaviestSubtreeForkChoice) : SameWeights fc fc :=
  ⟨SameLinks.refl fc, rfl, fun _ => rfl, fun _ => rfl⟩

theorem SameWeights.trans {fc'' : HeaviestSubtreeForkChoice} (h : SameWeights fc fc')
    (h' : SameWeights fc' fc'') : SameWeights fc fc'' :=
  ⟨h.toSameLinks.trans h'.toSameLinks, h'.latestVotes.trans h.latestVotes,
    fun s => (h'.votedAt s).trans (h.votedAt s), fun s => (h'.weight s).trans (h.weight s)⟩

def setBest (fc : HeaviestSubtreeForkChoice) (s best : Nat) : HeaviestSubtreeForkChoice :=
  fc.setInfo s { fc.entry s with bestSlot := best }

theorem sameWeights_setBest (hs : s ∈ fc.slots) (best : Nat) :
    SameWeights fc (fc.setBest s best) := by
  refine ⟨SameLinks.setInfo hs rfl rfl, rfl, fun t => ?_, fun t => ?_⟩
  · unfold votedAt setBest
    rw [entry_setInfo]
    split
    · rename_i h
      rw [h]
    · rfl
  · unfold weight setBest
    rw [entry_setInfo]
    split
    · rename_i h
      rw [h]
    · rfl

theorem setBest_bestSlot (fc : HeaviestSubtreeForkChoice) (s best t : Nat) :
    ((fc.setBest s best).entry t).bestSlot = if t = s then best else (fc.entry t).bestSlot := by
  unfold setBest
  rw [entry_setInfo]
  split
  · rfl
  · rfl

/-- The rule for best slots, with the walk at `a`: below `a` the new leaf is in place, and at `a` it
is due if the best slot there is the one to be replaced. -/
structure Propagating (F : Forest Nat) (leaf old a : Nat)
    (fc : HeaviestSubtreeForkChoice) : Prop where
  others : ∀ s, s ≠ a → fc.BestAt s
  due : (fc.entry a).bestSlot = old →
    ∃ c, BestChild fc.weight (fc.entry a).children c ∧ (fc.entry c).bestSlot = leaf
  done : (fc.entry a).bestSlot ≠ old → fc.BestAt a
  below : ∀ s, F.Below s (fc.entry s).bestSlot
  leaf_below : F.Below a leaf

theorem BestAt.setBest (h : fc.BestAt s) (ha : a ∈ fc.slots) (hs : s ≠ a)
    (hchild : a ∉ (fc.entry s).children) : (fc.setBest a leaf).BestAt s := by
  have hsame := sameWeights_setBest ha leaf
  refine h.congr (hsame.children s) ?_ fun c hc => ⟨hsame.weight c, ?_⟩
  · rw [setBest_bestSlot, if_neg hs]
  · rw [setBest_bestSlot, if_neg]
    rintro rfl
    exact hchild hc

theorem Propagating.setBest_self (htree : fc.IsTree) (h : Propagating F leaf old a fc)
    (ha : a ∈ fc.slots) (hbest : (fc.entry a).bestSlot = old) : (fc.setBest a leaf).BestAt a := by
  have hsame := sameWeights_setBest ha leaf
  obtain ⟨c, hchild, hc⟩ := h.due hbest
  refine .inr ⟨c, ?_, ?_⟩
  · rw [hsame.children]
    exact hchild.congr fun c _ => hsame.weight c
  · have hne : c ≠ a := (htree.child_lt hchild.1).1.ne'
    rw [setBest_bestSlot, setBest_bestSlot, if_neg hne, if_pos rfl, hc]

/-- One round: the walk goes on at the parent. -/
theorem Propagating.step (htree : fc.IsTree) (hF : ∀ s, F.parent s = (fc.entry s).parent)
    (h : Propagating F leaf old a fc) (hbest : (fc.entry a).bestSlot = old)
    (hp : (fc.entry a).parent = some p) : Propagating F leaf old p (fc.setBest a leaf) := by
  obtain ⟨hlt, ha, hpmem⟩ := htree.parent_lt hp
  have hsame := sameWeights_setBest ha leaf
  have hmem : a ∈ (fc.entry p).children := (htree.mem_children p a).mpr hp
  have hpbest : ((fc.setBest a leaf).entry p).bestSlot = (fc.entry p).bestSlot := by
    rw [setBest_bestSlot, if_neg hlt.ne]
  -- the best child of `p` is the slot the walk came from, if its best slot is the one to be
  -- replaced
  have hrule : ∃ c, BestChild fc.weight (fc.entry p).children c ∧
      (fc.entry c).bestSlot = (fc.entry p).bestSlot := by
    rcases h.others p hlt.ne with ⟨hleaf, -⟩ | hrule
    · rw [hleaf] at hmem
      exact absurd hmem not_mem_nil
    · exact hrule
  obtain ⟨c, hchild, hc⟩ := hrule
  have hchild' : BestChild (fc.setBest a leaf).weight ((fc.setBest a leaf).entry p).children c := by
    rw [hsame.children]
    exact hchild.congr fun c _ => hsame.weight c
  refine ⟨fun s hs => ?_, fun hpold => ?_, fun hpold => ?_, fun s => ?_, ?_⟩
  · by_cases hsa : s = a
    · rw [hsa]
      exact h.setBest_self htree ha hbest
    · refine (h.others s hsa).setBest ha hsa fun hchild => hs ?_
      have := (htree.mem_children s a).mp hchild
      rw [hp] at this
      exact (Option.some.inj this).symm
  · rw [hpbest] at hpold
    have hca : c = a := by
      have hcparent : F.parent c = some p := (hF c).trans ((htree.mem_children p c).mp hchild.1)
      have hbelow : F.Below c old := by
        rw [← hpold, ← hc]
        exact h.below c
      have hbelow' : F.Below a old := hbest ▸ h.below a
      exact Forest.Below.child_unique hcparent ((hF a).trans hp) hbelow hbelow'
    refine ⟨c, hchild', ?_⟩
    rw [setBest_bestSlot, if_pos hca]
  · rw [hpbest] at hpold
    refine .inr ⟨c, hchild', ?_⟩
    rw [hpbest, setBest_bestSlot, if_neg, hc]
    rintro rfl
    exact hpold (hc ▸ hbest)
  · rw [setBest_bestSlot]
    split
    · rename_i hsa
      rw [hsa]
      exact h.leaf_below
    · exact h.below s
  · exact (Forest.Below.of_parent ((hF a).trans hp)).trans h.leaf_below

theorem propagateLoop_succ (ha : a ∈ fc.slots) (hbest : (fc.entry a).bestSlot = old) (fuel : Nat) :
    propagateLoop leaf old (fuel + 1) fc a = match (fc.entry a).parent with
      | none => .ok (fc.setBest a leaf)
      | some p => propagateLoop leaf old fuel (fc.setBest a leaf) p := by
  rw [propagateLoop, getElem?_of_mem ha]
  simp only [unwrap_some, bind, Except.bind]
  rw [if_pos hbest]
  rfl

/-- **The walk up the tree** ends within the fuel, writes best slots only, and restores their
rule. -/
theorem propagateLoop_returns (F : Forest Nat) (leaf old : Nat) (htree : fc.IsTree)
    (ha : a ∈ fc.slots) {fuel : Nat} (hfuel : a < fuel) :
    ∃ fc', propagateLoop leaf old fuel fc a = .ok fc' ∧ SameWeights fc fc' ∧
      ((∀ s, F.parent s = (fc.entry s).parent) → Propagating F leaf old a fc →
        ∀ s, fc'.BestAt s) := by
  induction fuel generalizing fc a with
  | zero => omega
  | succ fuel ih =>
    have hsame := sameWeights_setBest ha leaf
    have htree' := htree.sameLinks hsame.toSameLinks
    by_cases hbest : (fc.entry a).bestSlot = old
    · rw [propagateLoop_succ ha hbest]
      cases hp : (fc.entry a).parent with
      | none =>
        refine ⟨fc.setBest a leaf, rfl, hsame, fun _ h s => ?_⟩
        by_cases hsa : s = a
        · rw [hsa]
          exact h.setBest_self htree ha hbest
        · refine (h.others s hsa).setBest ha hsa fun hchild => ?_
          rw [(htree.mem_children s a).mp hchild] at hp
          cases hp
      | some p =>
        obtain ⟨hlt, -, hpmem⟩ := htree.parent_lt hp
        obtain ⟨fc', hloop, hsame', hrule⟩ :=
          ih htree' (hsame.slots ▸ hpmem) (show p < fuel by omega)
        refine ⟨fc', hloop, hsame.trans hsame', fun hF h => hrule (fun s => ?_) ?_⟩
        · rw [hsame.parent]
          exact hF s
        · exact h.step htree hF hbest hp
    · unfold propagateLoop
      rw [getElem?_of_mem ha]
      simp only [unwrap_some, bind, Except.bind]
      rw [if_neg hbest]
      refine ⟨fc, rfl, SameWeights.refl fc, fun _ h s => ?_⟩
      by_cases hsa : s = a
      · rw [hsa]
        exact h.done hbest
      · exact h.others s hsa

/-! ## The new leaf -/

/-- The tree with `slot` below `p`, before best slots are updated. -/
def hang (fc : HeaviestSubtreeForkChoice) (slot p : Nat) : HeaviestSubtreeForkChoice :=
  (fc.setInfo slot ⟨0, 0, slot, some p, []⟩).setInfo p
    { fc.entry p with children := (fc.entry p).children ++ [slot] }

theorem entry_hang (fc : HeaviestSubtreeForkChoice) (slot p t : Nat) :
    (fc.hang slot p).entry t =
      if t = p then { fc.entry p with children := (fc.entry p).children ++ [slot] }
      else if t = slot then ⟨0, 0, slot, some p, []⟩ else fc.entry t := by
  unfold hang
  rw [entry_setInfo, entry_setInfo]

theorem slots_hang (hp : p ∈ fc.slots) : (fc.hang slot p).slots = insert slot fc.slots := by
  unfold hang
  rw [slots_setInfo, slots_setInfo, Finset.insert_eq_of_mem (Finset.mem_insert_of_mem hp)]

section Hang

variable (hslot : slot ∉ fc.slots)
include hslot

/-- Only links are written: an untracked slot counts as a leaf without stake. -/
theorem entry_hang_values (t : Nat) : (fc.hang slot p).votedAt t = fc.votedAt t ∧
    (fc.hang slot p).weight t = fc.weight t ∧
    ((fc.hang slot p).entry t).bestSlot = (fc.entry t).bestSlot := by
  unfold votedAt weight
  rw [entry_hang]
  by_cases htp : t = p
  · rw [if_pos htp, htp]
    exact ⟨rfl, rfl, rfl⟩
  · rw [if_neg htp]
    by_cases hts : t = slot
    · rw [if_pos hts, hts, entry_of_not_mem hslot]
      exact ⟨rfl, rfl, rfl⟩
    · rw [if_neg hts]
      exact ⟨rfl, rfl, rfl⟩

theorem children_hang (t : Nat) : ((fc.hang slot p).entry t).children =
    (fc.entry t).children ++ if t = p then [slot] else [] := by
  rw [entry_hang]
  by_cases htp : t = p
  · rw [if_pos htp, if_pos htp, htp]
  · rw [if_neg htp, if_neg htp, append_nil]
    by_cases hts : t = slot
    · rw [if_pos hts, hts, entry_of_not_mem hslot]
    · rw [if_neg hts]

theorem weight_hang (hrule : ∀ s, fc.RuledAt s) (t : Nat) : (fc.hang slot p).weight t =
    (fc.hang slot p).votedAt t +
      (((fc.hang slot p).entry t).children.map (fc.hang slot p).weight).sum := by
  have hmap : ∀ l : List Nat, l.map (fc.hang slot p).weight = l.map fc.weight := fun l =>
    map_congr_left fun c _ => (entry_hang_values hslot c).2.1
  have hzero : fc.weight slot = 0 := by
    unfold weight
    rw [entry_of_not_mem hslot]
  rw [(entry_hang_values hslot t).1, (entry_hang_values hslot t).2.1, (hrule t).weight, hmap,
    children_hang hslot, map_append]
  split
  · simp [hzero]
  · simp

theorem bestAt_hang_of_ne (hrule : ∀ s, fc.BestAt s) (ht : t ≠ p) : (fc.hang slot p).BestAt t := by
  refine (hrule t).congr ?_ (entry_hang_values hslot t).2.2 fun c _ =>
    (entry_hang_values hslot c).2
  rw [children_hang hslot, if_neg ht, append_nil]

/-- A new leaf that is not the best child leaves the best child of its parent. -/
theorem bestAt_hang_of_not_best (hrule : ∀ s, fc.BestAt s)
    (hbest : ¬ BestChild (fc.hang slot p).weight ((fc.hang slot p).entry p).children slot) :
    (fc.hang slot p).BestAt p := by
  have hweight : ∀ t, (fc.hang slot p).weight t = fc.weight t := fun t =>
    (entry_hang_values hslot t).2.1
  have hchildren : ((fc.hang slot p).entry p).children = (fc.entry p).children ++ [slot] := by
    rw [children_hang hslot, if_pos rfl]
  rw [hchildren] at hbest
  have hexists : ∃ c ∈ (fc.entry p).children,
      ¬ (fc.weight c < fc.weight slot ∨ (fc.weight c = fc.weight slot ∧ slot ≤ c)) := by
    by_contra hno
    push Not at hno
    refine hbest ⟨by simp, forall_mem_concat.mpr ⟨fun c hc => ?_, .inr ⟨rfl, le_refl _⟩⟩⟩
    rw [hweight, hweight]
    have := hno c hc
    omega
  obtain ⟨c', hc', hnot⟩ := hexists
  rcases hrule p with ⟨hleaf, -⟩ | ⟨c, hchild, hc⟩
  · rw [hleaf] at hc'
    exact absurd hc' not_mem_nil
  refine .inr ⟨c, ?_, ?_⟩
  · rw [hchildren]
    refine ⟨mem_append_left _ hchild.1, ?_⟩
    simp only [hweight]
    refine forall_mem_concat.mpr ⟨hchild.2, ?_⟩
    have := hchild.2 c' hc'
    omega
  · rw [(entry_hang_values hslot c).2.2, (entry_hang_values hslot p).2.2]
    exact hc

variable (hp : p ∈ fc.slots)
include hp

theorem parent_hang (t : Nat) :
    ((fc.hang slot p).entry t).parent = if t = slot then some p else (fc.entry t).parent := by
  rw [entry_hang]
  by_cases htp : t = p
  · rw [if_pos htp, htp, if_neg]
    rintro rfl
    exact hslot hp
  · rw [if_neg htp]
    by_cases hts : t = slot
    · rw [if_pos hts, if_pos hts]
    · rw [if_neg hts, if_neg hts]

theorem isTree_hang (htree : fc.IsTree) (hlt : p < slot) : (fc.hang slot p).IsTree where
  root_mem := by
    rw [slots_hang hp]
    exact Finset.mem_insert_of_mem htree.root_mem
  root_parent := by
    rw [parent_hang hslot hp, if_neg]
    · exact htree.root_parent
    · intro heq
      exact hslot (heq ▸ htree.root_mem)
  parent := by
    intro s hs hroot
    rw [slots_hang hp] at hs ⊢
    rw [parent_hang hslot hp]
    rcases Finset.mem_insert.mp hs with rfl | hs
    · rw [if_pos rfl]
      exact ⟨p, Finset.mem_insert_of_mem hp, rfl, hlt⟩
    · obtain ⟨q, hq, hparent, hlt'⟩ := htree.parent s hs hroot
      have hne : s ≠ slot := fun heq => hslot (heq ▸ hs)
      rw [if_neg hne]
      exact ⟨q, Finset.mem_insert_of_mem hq, hparent, hlt'⟩
  mem_children := by
    intro q c
    rw [children_hang hslot, parent_hang hslot hp, mem_append, htree.mem_children]
    by_cases hc : c = slot
    · rw [hc, entry_of_not_mem hslot]
      by_cases hq : q = p
      · simp [hq]
      · simp [hq, Ne.symm hq]
    · rw [if_neg hc]
      by_cases hq : q = p
      · simp [hc]
      · simp [hq]
  nodup := by
    intro q
    rw [children_hang hslot]
    split
    · refine List.Nodup.append (htree.nodup q) (nodup_singleton slot) ?_
      intro c hc hc'
      rw [mem_singleton.mp hc'] at hc
      exact hslot (htree.child_lt hc).2.1
    · rw [append_nil]
      exact htree.nodup q

theorem below_hang (htree : fc.IsTree) (htree' : (fc.hang slot p).IsTree)
    (h : htree.forest.Below s t) : htree'.forest.Below s t := by
  refine h.mono fun c q hq => (parent_hang hslot hp c).trans ?_
  have hc : c ∈ fc.slots := (htree.parent_lt hq).2.1
  have hne : c ≠ slot := fun heq => hslot (heq ▸ hc)
  rw [if_neg hne]
  exact hq

theorem addNewLeafSlot_eq :
    fc.addNewLeafSlot slot (some p) = propagateNewLeaf (fc.hang slot p) slot p := by
  have hleaf : fc.leafInfo slot (some p) = ⟨0, 0, slot, some p, []⟩ := by
    unfold leafInfo
    rw [getElem?_of_not_mem hslot]
  have hne : p ≠ slot := by
    rintro rfl
    exact hslot hp
  have hmem : p ∈ (fc.setInfo slot ⟨0, 0, slot, some p, []⟩).slots := by
    rw [slots_setInfo]
    exact Finset.mem_insert_of_mem hp
  unfold addNewLeafSlot
  simp only [hleaf, getElem?_of_mem hmem, entry_setInfo_of_ne _ hne]
  rfl

/-- **Adding a leaf**: a new slot below a slot of the tree is added without a panic, the links still
describe one tree, and the rule at every slot is kept. -/
theorem addNewLeafSlot_returns (htree : fc.IsTree) (hlt : p < slot) :
    ∃ fc', fc.addNewLeafSlot slot (some p) = .ok fc' ∧ fc'.IsTree ∧ fc'.root = fc.root ∧
      fc'.slots = insert slot fc.slots ∧ fc'.latestVotes = fc.latestVotes ∧
      (∀ s, fc'.votedAt s = fc.votedAt s) ∧ ((∀ s, fc.RuledAt s) → ∀ s, fc'.RuledAt s) := by
  have htree' := isTree_hang hslot hp htree hlt
  have hmem : p ∈ (fc.hang slot p).slots := by
    rw [slots_hang hp]
    exact Finset.mem_insert_of_mem hp
  have hparent : ((fc.hang slot p).entry slot).parent = some p := by
    rw [parent_hang hslot hp, if_pos rfl]
  obtain ⟨best, hisBest, hiff⟩ := isBestChild_eq htree' hparent
  have hdone : ∀ fc', SameWeights (fc.hang slot p) fc' →
      ((∀ s, fc.RuledAt s) → ∀ s, fc'.BestAt s) → fc'.IsTree ∧ fc'.root = fc.root ∧
      fc'.slots = insert slot fc.slots ∧ fc'.latestVotes = fc.latestVotes ∧
      (∀ s, fc'.votedAt s = fc.votedAt s) ∧ ((∀ s, fc.RuledAt s) → ∀ s, fc'.RuledAt s) := by
    intro fc' hsame hbestAt
    refine ⟨htree'.sameLinks hsame.toSameLinks, hsame.root, hsame.slots.trans (slots_hang hp),
      hsame.latestVotes, fun s => (hsame.votedAt s).trans (entry_hang_values hslot s).1,
      fun hrule s => ⟨?_, hbestAt hrule s⟩⟩
    rw [hsame.weight, hsame.votedAt, hsame.children, map_congr_left fun c _ => hsame.weight c]
    exact weight_hang hslot hrule s
  rw [addNewLeafSlot_eq hslot hp]
  unfold propagateNewLeaf
  rw [bestSlot_of_mem hmem, hisBest]
  cases best with
  | false =>
    refine ⟨_, rfl, hdone _ (SameWeights.refl _) fun hrule s => ?_⟩
    by_cases hs : s = p
    · rw [hs]
      refine bestAt_hang_of_not_best hslot (fun s => (hrule s).best) fun h => ?_
      exact absurd (hiff.mpr h) Bool.false_ne_true
    · exact bestAt_hang_of_ne hslot (fun s => (hrule s).best) hs
  | true =>
    obtain ⟨fc', hloop, hsame, hbestAt⟩ := propagateLoop_returns htree'.forest slot
      ((fc.hang slot p).entry p).bestSlot htree' hmem (Nat.lt_succ_self p)
    refine ⟨fc', hloop, hdone fc' hsame fun hrule => hbestAt (fun _ => rfl) ?_⟩
    have hbelow : htree'.forest.Below p slot := Forest.Below.of_parent hparent
    refine ⟨fun s hs => bestAt_hang_of_ne hslot (fun s => (hrule s).best) hs,
      fun _ => ⟨slot, hiff.mp rfl, ?_⟩, fun h => absurd rfl h, fun s => ?_, hbelow⟩
    · rw [(entry_hang_values hslot slot).2.2, entry_of_not_mem hslot]
    · rw [(entry_hang_values hslot s).2.2]
      exact below_hang hslot hp htree htree' (bestSlot_below htree (fun s => (hrule s).best) s)

end Hang

end HeaviestSubtreeForkChoice

end Panoptes.ForkChoice
