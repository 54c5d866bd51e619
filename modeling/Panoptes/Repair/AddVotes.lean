import Panoptes.Repair.Synced

/-!
# Votes in repair weight

* `Found`, `findAncestorSubtreeOfSlot_returns` — what the walk up the known ancestors of a slot
  finds.
* `Bookkeeping.extend` — a tree gets slots that were not tracked.
* `addVotes_returns` — `add_votes` keeps the bookkeeping invariant, and can only abort on an
  overflow.
-/

set_option autoImplicit false

namespace Panoptes.Repair

open Lib Sdk ForkChoice List HeaviestSubtreeForkChoice
open Std (ExtTreeMap)

theorem Blockstore.parent_lt' {blockstore : Blockstore} {slot p : Nat}
    (h : blockstore.parent slot = some p) : p < slot := by
  obtain ⟨slotMeta, hmeta, h⟩ := Option.bind_eq_some_iff.mp h
  split at h
  · rename_i hset
    cases h
    exact blockstore.parent_lt slot slotMeta hset.2 hmeta hset.1
  · cases h

namespace RepairWeight

variable {repair repair' : RepairWeight} {fc fc' : HeaviestSubtreeForkChoice} {s k slot a : Nat}
  {blockstore : Blockstore} {ancestors rest : List Nat}

/-! ## The ancestors of a slot -/

/-- What `find_ancestor_subtree_of_slot` finds: a chain of smaller slots that leads up to `slot`.
Its first slot is in the tree that was found, or is unrooted, or has no known parent; the others are
new. -/
structure Found (repair : RepairWeight) (slot : Nat) (ancestors : List Nat) (tree : Option Nat) :
    Prop where
  sorted : (ancestors ++ [slot]).Pairwise (· < ·)
  tail : ∀ a ∈ ancestors.tail, repair.slotToTree[a]? = none ∧ repair.isUnrootedSlot a = false
  head_some : ∀ k, tree = some k → ∃ a rest, ancestors = a :: rest ∧ repair.slotToTree[a]? = some k
  head_none : tree = none → ∀ a rest, ancestors = a :: rest →
    repair.isUnrootedSlot a = true ∨ repair.slotToTree[a]? = none

theorem findAncestorLoop_returns {fuel : Nat} {current : Option Nat} (hpos : 0 < fuel)
    (hfuel : ∀ a, current = some a → a + 1 < fuel)
    (hsorted : (ancestors ++ [slot]).Pairwise (· < ·))
    (hcurrent : ∀ a, current = some a → ∀ b ∈ ancestors ++ [slot], a < b)
    (hnew : ∀ a ∈ ancestors, repair.slotToTree[a]? = none ∧ repair.isUnrootedSlot a = false) :
    ∃ found, repair.findAncestorLoop blockstore fuel current ancestors = .ok found ∧
      Found repair slot found.1 found.2 := by
  induction fuel generalizing current ancestors with
  | zero => omega
  | succ fuel ih =>
    cases current with
    | none =>
      refine ⟨(ancestors, none), rfl, hsorted, fun a ha => hnew a (mem_of_mem_tail ha),
        fun k hk => (by cases hk), fun _ a rest heq => .inr (hnew a ?_).1⟩
      simp only at heq
      rw [heq]
      exact mem_cons_self ..
    | some a =>
      have hsorted' : ((a :: ancestors) ++ [slot]).Pairwise (· < ·) :=
        pairwise_cons.mpr ⟨hcurrent a rfl, hsorted⟩
      unfold findAncestorLoop
      split
      · rename_i hunrooted
        refine ⟨_, rfl, hsorted', hnew, fun k hk => (by cases hk), fun _ b rest heq => .inl ?_⟩
        cases heq
        exact hunrooted
      · rename_i hrooted
        split
        · rename_i k hk
          refine ⟨_, rfl, hsorted', hnew, fun k' hk' => ⟨a, ancestors, rfl, ?_⟩,
            fun h => (by cases h)⟩
          cases hk'
          exact hk
        · rename_i huntracked
          have hlt := hfuel a rfl
          refine ih (by omega) (fun b hb => ?_) hsorted' (fun b hb c hc => ?_) fun b hb => ?_
          · have := Blockstore.parent_lt' hb
            omega
          · have hba := Blockstore.parent_lt' hb
            rcases mem_cons.mp hc with rfl | hc
            · exact hba
            · exact hba.trans (hcurrent a rfl c hc)
          · rcases mem_cons.mp hb with rfl | hb
            · exact ⟨huntracked, Bool.eq_false_iff.mpr hrooted⟩
            · exact hnew b hb

/-- **The walk up the known ancestors** of a slot ends. -/
theorem findAncestorSubtreeOfSlot_returns (repair : RepairWeight)
    (blockstore : Blockstore) (slot : Nat) :
    ∃ found, repair.findAncestorSubtreeOfSlot blockstore slot = .ok found ∧
      Found repair slot found.1 found.2 := by
  refine findAncestorLoop_returns (Nat.succ_pos slot) (fun a ha => ?_) (pairwise_singleton _ _)
    (fun a ha b hb => ?_) fun a ha => ?_
  · have := Blockstore.parent_lt' ha
    omega
  · have := Blockstore.parent_lt' ha
    rw [mem_singleton.mp hb]
    exact this
  · exact absurd ha not_mem_nil

/-! ## Chains -/

/-- A chain of new slots is added below a slot of a tree. -/
theorem addChain_returns (treeRoot : Nat) {a : Nat} {rest : List Nat} {map : ExtTreeMap Nat Nat}
    (htree : fc.IsTree) (ha : a ∈ fc.slots) (hsorted : (a :: rest).Pairwise (· < ·))
    (hnew : ∀ b ∈ rest, b ∉ fc.slots) :
    ∃ fc' map', addChain treeRoot (a :: rest) fc map = .ok (fc', map') ∧ fc'.IsTree ∧
      fc'.root = fc.root ∧ (∀ s, s ∈ fc'.slots ↔ s ∈ fc.slots ∨ s ∈ rest) ∧
      ∀ s, map'[s]? = if s ∈ rest then some treeRoot else map[s]? := by
  induction rest generalizing a fc map with
  | nil => exact ⟨fc, map, rfl, htree, rfl, by simp, by simp⟩
  | cons b rest ih =>
    obtain ⟨hab, hsorted'⟩ := pairwise_cons.mp hsorted
    obtain ⟨hb, -⟩ := pairwise_cons.mp hsorted'
    obtain ⟨fc₁, hrun, htree₁, hroot₁, hslots₁, -⟩ := addNewLeafSlot_returns
      (hnew b (mem_cons_self ..)) ha htree (hab b (mem_cons_self ..))
    obtain ⟨fc', map', hrest, htree', hroot', hslots', hmap'⟩ := @ih fc₁ b (map.insert b treeRoot)
      htree₁ (hslots₁ ▸ Finset.mem_insert_self _ _) hsorted' fun c hc hmem => by
        rw [hslots₁] at hmem
        rcases Finset.mem_insert.mp hmem with rfl | hmem
        · exact lt_irrefl _ (hb _ hc)
        · exact hnew c (mem_cons_of_mem b hc) hmem
    refine ⟨fc', map', ?_, htree', hroot'.trans hroot₁, fun s => ?_, fun s => ?_⟩
    · unfold addChain
      rw [hrun]
      exact hrest
    · rw [hslots', hslots₁, Finset.mem_insert, mem_cons]
      tauto
    · rw [hmap', getElem?_insert_ite]
      by_cases hs : s = b
      · simp [hs]
      · simp [hs]

section

variable (h : Bookkeeping repair)
include h

/-- **A tree gets new slots**, which were neither tracked nor unrooted. -/
theorem Bookkeeping.extend (hfc : fc.IsTree) (hroot : fc.root = k)
    {map : ExtTreeMap Nat Nat}
    (hmap : ∀ s : Nat, map[s]? = if s ∈ fc.slots then some k else repair.slotToTree[s]?)
    (hold : ∀ s : Nat, repair.slotToTree[s]? = some k → s ∈ fc.slots)
    (hnew : ∀ s ∈ fc.slots, repair.slotToTree[s]? = some k ∨
      (repair.slotToTree[s]? = none ∧ repair.isUnrootedSlot s = false)) :
    Bookkeeping { repair with trees := repair.trees.insert k fc, slotToTree := map } := by
  have hsynced : Synced { repair with trees := repair.trees.insert k fc, slotToTree := map } :=
    h.toSynced.extend hfc hroot hmap hold fun s hs => (hnew s hs).imp_right And.left
  have hslot : ∀ s k' : Nat, map[s]? = some k' → repair.root ≤ s ∧ s ∉ repair.unrootedSlots := by
    intro s k' hs
    rw [hmap] at hs
    split at hs
    · rename_i hmem
      rcases hnew s hmem with heq | heq
      · exact ⟨h.root_le s k heq, h.rooted s k heq⟩
      · exact isUnrootedSlot_eq_false.mp heq.2
    · exact ⟨h.root_le s k' hs, h.rooted s k' hs⟩
  refine ⟨hsynced, ?_, fun s k' hs => (hslot s k' hs).1, fun s k' hs => (hslot s k' hs).2⟩
  simp only [getElem?_insert_ite]
  split
  · simp
  · exact h.root_mem

/-- The new tree of a slot that is neither tracked nor unrooted. -/
theorem insertNewTree_returns (hs : repair.slotToTree[s]? = none)
    (hrooted : repair.isUnrootedSlot s = false) :
    repair.insertNewTree s = .ok (repair.withNewTree s) ∧ Bookkeeping (repair.withNewTree s) := by
  refine ⟨insertNewTree_eq h.toSynced hs, ?_⟩
  refine h.extend (isTree_new s)
    (show (new s).root = s from rfl) (fun t => ?_) (fun t ht => ?_)
    fun t ht => ?_
  · rw [getElem?_insert_ite, if_congr mem_slots_new rfl rfl]
  · exact absurd ht (h.toSynced.not_key hs)
  · rw [mem_slots_new.mp ht]
    exact .inr ⟨hs, hrooted⟩

/-- A slot and its new ancestors are chained to a tree. -/
theorem chainToTree_returns (hk : repair.trees[k]? = some fc)
    (hsplit : ancestors ++ [slot] = a :: rest) (ha : a ∈ fc.slots)
    (hsorted : (ancestors ++ [slot]).Pairwise (· < ·))
    (hnew : ∀ b ∈ rest, repair.slotToTree[b]? = none ∧ repair.isUnrootedSlot b = false) :
    ∃ repair', repair.chainToTree ancestors k slot = .ok repair' ∧ Bookkeeping repair' ∧
      ∀ k' : Nat, repair.trees[k']? ≠ none → repair'.trees[k']? ≠ none := by
  obtain ⟨htree, hroot⟩ := h.tree k fc hk
  have hmem := fun s => h.toSynced.getElem?_of_mem (s := s) hk
  obtain ⟨fc', map', hrun, htree', hroot', hslots', hmap'⟩ := @addChain_returns fc k a rest
    repair.slotToTree htree ha (hsplit ▸ hsorted) fun b hb hin => by
      rw [← hmem, (hnew b hb).1] at hin
      cases hin
  refine ⟨{ repair with trees := repair.trees.insert k fc', slotToTree := map' }, ?_, ?_,
    fun k' hk' => ?_⟩
  · unfold chainToTree
    rw [hk, hsplit]
    simp only [expect_some, bind, Except.bind, hrun]
  · refine h.extend htree' (hroot'.trans hroot) (fun s => ?_) (fun s hs => ?_) fun s hs => ?_
    · rw [hmap']
      by_cases hs : s ∈ rest
      · rw [if_pos hs, if_pos ((hslots' s).mpr (.inr hs))]
      · rw [if_neg hs]
        by_cases hs' : s ∈ fc.slots
        · rw [if_pos ((hslots' s).mpr (.inl hs')), (hmem s).mpr hs']
        · rw [if_neg fun hin => ((hslots' s).mp hin).elim hs' hs]
    · exact (hslots' s).mpr (.inl ((hmem s).mp hs))
    · rcases (hslots' s).mp hs with hs | hs
      · exact .inl ((hmem s).mpr hs)
      · exact .inr (hnew s hs)
  · simp only [getElem?_insert_ite]
    split
    · simp
    · exact hk'

/-! ## A vote -/

/-- The state of the first loop of `add_votes`: every tree with votes to add exists. -/
def Collecting (acc : RepairWeight × SubtreeUpdates) : Prop :=
  Bookkeeping acc.1 ∧ ∀ k : Nat, acc.2[k]? ≠ none → acc.1.trees[k]? ≠ none

omit h in
theorem addSubtreeUpdates_getElem? (updates : SubtreeUpdates) (treeRoot slot : Nat)
    (pubkeyVotes : List Pubkey) (k : Nat) :
    (addSubtreeUpdates updates treeRoot slot pubkeyVotes)[k]? ≠ none ↔ k = treeRoot ∨
      updates[k]? ≠ none := by
  unfold addSubtreeUpdates
  rw [getElem?_insert_ite]
  by_cases hk : k = treeRoot
  · simp [hk]
  · simp [hk]

/-- The slots of a chain that leads to an unrooted slot are not tracked, and become unrooted. -/
theorem Bookkeeping.addUnrooted {slots : Finset Nat}
    (hslots : ∀ s ∈ slots, repair.slotToTree[s]? = none) :
    Bookkeeping { repair with unrootedSlots := repair.unrootedSlots ∪ slots } := by
  refine ⟨⟨h.tree, h.slot⟩, h.root_mem, h.root_le, fun s k hs hmem => ?_⟩
  rcases Finset.mem_union.mp hmem with hmem | hmem
  · exact h.rooted s k hs hmem
  · have hs' : repair.slotToTree[s]? = some k := hs
    rw [hslots s hmem] at hs'
    cases hs'

/-- What the chain of a slot that is not tracked looks like. -/
theorem Found.ancestors_untracked (hfound : Found repair slot ancestors none)
    (hslot : repair.slotToTree[slot]? = none) :
    ∀ a ∈ ancestors ++ [slot], repair.slotToTree[a]? = none := by
  refine forall_mem_concat.mpr ⟨?_, hslot⟩
  cases ancestors with
  | nil => exact forall_mem_nil _
  | cons b rest =>
    exact forall_mem_cons.mpr ⟨(hfound.head_none rfl b rest rfl).elim h.untracked id,
      fun a ha => (hfound.tail a ha).1⟩

/-- Chaining a slot to the tree that was found, or that was made for the first slot of its chain. -/
theorem chain_collecting (hk : repair.trees[k]? = some fc)
    (hsplit : ancestors ++ [slot] = a :: rest) (ha : a ∈ fc.slots)
    (hsorted : (ancestors ++ [slot]).Pairwise (· < ·))
    (hnew : ∀ b ∈ rest, repair.slotToTree[b]? = none ∧ repair.isUnrootedSlot b = false)
    {updates : SubtreeUpdates} (hupdates : ∀ k : Nat, updates[k]? ≠ none → repair.trees[k]? ≠ none)
    (pubkeyVotes : List Pubkey) :
    ∃ acc, (do
        let repair ← repair.chainToTree ancestors k slot
        .ok (repair, addSubtreeUpdates updates k slot pubkeyVotes) :
          Except Panic (RepairWeight × SubtreeUpdates)) = .ok acc ∧ Collecting acc := by
  obtain ⟨repair', hrun, hbook, htrees⟩ := chainToTree_returns h hk hsplit ha hsorted hnew
  refine ⟨(repair', addSubtreeUpdates updates k slot pubkeyVotes), ?_, hbook, fun k' hk' => ?_⟩
  · rw [hrun]
    rfl
  · rcases (addSubtreeUpdates_getElem? ..).mp hk' with rfl | hk'
    · exact htrees _ (by rw [hk]; simp)
    · exact htrees k' (hupdates k' hk')

end

/-- **The votes for one slot** keep the bookkeeping invariant. -/
theorem addSlotVotes_returns (blockstore : Blockstore) {acc : RepairWeight × SubtreeUpdates}
    (h : Collecting acc) (vote : Nat × List Pubkey) :
    ∃ acc', addSlotVotes blockstore acc vote = .ok acc' ∧ Collecting acc' := by
  obtain ⟨repair, updates⟩ := acc
  obtain ⟨slot, pubkeyVotes⟩ := vote
  obtain ⟨hbook, hupdates⟩ := h
  unfold addSlotVotes
  by_cases hskip : slot < repair.root ∨ slot ∈ repair.unrootedSlots
  · simp only [if_pos hskip]
    exact ⟨_, rfl, hbook, hupdates⟩
  simp only [if_neg hskip]
  have hrooted : repair.isUnrootedSlot slot = false := by
    unfold isUnrootedSlot
    rw [decide_eq_false_iff_not]
    exact hskip
  unfold findTree
  cases hslot : repair.slotToTree[slot]? with
  | some k =>
    -- the slot is tracked: nothing is added to its tree
    obtain ⟨fc, hfc, hmem⟩ := (hbook.slot slot k).mp hslot
    have hkrooted := hbook.not_unrooted (hbook.toSynced.key hfc)
    simp only [bind, Except.bind, Option.getD_some, hkrooted]
    exact chain_collecting hbook hfc (show [] ++ [slot] = slot :: [] from rfl) hmem
      (pairwise_singleton _ _)
      (fun b hb => absurd hb not_mem_nil) hupdates pubkeyVotes
  | none =>
    obtain ⟨⟨ancestors, tree⟩, hrun, hfound⟩ :=
      findAncestorSubtreeOfSlot_returns repair blockstore slot
    simp only [hrun, bind, Except.bind]
    cases tree with
    | some k =>
      obtain ⟨a, rest, rfl, ha⟩ := hfound.head_some k rfl
      obtain ⟨fc, hfc, hmem⟩ := (hbook.slot a k).mp ha
      have hkrooted := hbook.not_unrooted (hbook.toSynced.key hfc)
      simp only [Option.getD_some, hkrooted]
      exact chain_collecting hbook hfc
        (show (a :: rest) ++ [slot] = a :: (rest ++ [slot]) from rfl) hmem hfound.sorted
        (forall_mem_concat.mpr ⟨hfound.tail, hslot, hrooted⟩) hupdates pubkeyVotes
    | none =>
      have huntracked := hfound.ancestors_untracked hbook hslot
      simp only [Option.getD_none]
      cases hunrooted : repair.isUnrootedSlot (ancestors.head?.getD slot) with
      | true =>
        refine ⟨_, rfl, hbook.addUnrooted fun s hs => huntracked s (mem_toFinset.mp hs), ?_⟩
        exact hupdates
      | false =>
        -- a new tree for the earliest known ancestor
        obtain ⟨a, rest, hsplit, ha⟩ : ∃ a rest, ancestors ++ [slot] = a :: rest ∧
            ancestors.head?.getD slot = a := by
          cases ancestors with
          | nil => exact ⟨slot, [], rfl, rfl⟩
          | cons b rest => exact ⟨b, rest ++ [slot], rfl, rfl⟩
        rw [ha] at hunrooted ⊢
        have hauntracked : repair.slotToTree[a]? = none :=
          huntracked a (hsplit ▸ mem_cons_self ..)
        obtain ⟨hinsert, hbook'⟩ := insertNewTree_returns hbook hauntracked hunrooted
        simp only [hinsert]
        have hsorted := hfound.sorted
        refine chain_collecting hbook' (withNewTree_trees_self repair a) hsplit
          (mem_slots_new.mpr rfl) hsorted (fun b hb => ?_)
          (fun k hk => withNewTree_trees_ne_none a (hupdates k hk)) pubkeyVotes
        have hne : b ≠ a := by
          rw [hsplit] at hsorted
          exact ((pairwise_cons.mp hsorted).1 b hb).ne'
        rw [withNewTree_slotToTree, if_neg hne]
        refine ⟨huntracked b (hsplit ▸ mem_cons_of_mem a hb), ?_⟩
        have hbrooted : repair.isUnrootedSlot b = false := by
          cases ancestors with
          | nil =>
            cases hsplit
            exact absurd hb not_mem_nil
          | cons c rest' =>
            cases hsplit
            exact forall_mem_concat.mpr ⟨fun b hb => (hfound.tail b hb).2, hrooted⟩ b hb
        exact hbrooted

/-! ## A call -/

/-- The votes are added to a tree: its slots stay. -/
theorem applySubtreeUpdates_returns (o : Overflow) (es : EpochStakes) (h : Bookkeeping repair)
    (entry : Nat × ExtTreeMap Pubkey Nat) (hentry : repair.trees[entry.1]? ≠ none) :
    Returns (applySubtreeUpdates o es repair entry)
      (fun repair' => Bookkeeping repair' ∧
        ∀ k : Nat, repair.trees[k]? ≠ none → repair'.trees[k]? ≠ none) o.Aborts := by
  obtain ⟨fc, hfc⟩ := Option.ne_none_iff_exists'.mp hentry
  obtain ⟨htree, hroot⟩ := h.tree _ fc hfc
  have hmem := fun s => h.toSynced.getElem?_of_mem (s := s) hfc
  unfold applySubtreeUpdates
  rw [hfc]
  refine ((ForkChoice.addVotes_returns o es htree entry.2.toList).imp_error
    fun e he => ⟨he.1, he.2.1⟩).bind fun voted hvoted => ?_
  obtain ⟨hsame, -⟩ := hvoted
  refine ⟨?_, fun k hk => ?_⟩
  · refine h.extend (htree.sameLinks hsame) (hsame.root.trans hroot) (fun s => ?_) (fun s hs => ?_)
      fun s hs => ?_
    · rw [hsame.slots]
      split
      · rename_i hs
        exact (hmem s).mpr hs
      · rfl
    · rw [hsame.slots]
      exact (hmem s).mp hs
    · rw [hsame.slots] at hs
      exact .inl ((hmem s).mpr hs)
  · simp only [getElem?_insert_ite]
    split
    · simp
    · exact hk

/-- **`add_votes` keeps the bookkeeping invariant**: no `expect` or `assert` fails, and the only
abort is an overflow of the stakes in a build that checks for it. -/
theorem addVotes_returns (o : Overflow) (es : EpochStakes) (h : Bookkeeping repair)
    (blockstore : Blockstore) (votes : List (Nat × List Pubkey)) :
    Returns (repair.addVotes o blockstore votes es) Bookkeeping o.Aborts := by
  have hfirst :
      Returns (votes.foldlM (addSlotVotes blockstore) (repair, ∅)) Collecting o.Aborts := by
    refine Returns.foldlM (P := fun _ acc => Collecting acc) votes [] ⟨h, fun k hk => ?_⟩
      fun pre vote post acc _ hacc => ?_
    · exact absurd (by simp) hk
    · obtain ⟨acc', hrun, hacc'⟩ := addSlotVotes_returns blockstore hacc vote
      rw [hrun]
      exact hacc'
  refine hfirst.bind fun added hadded => ?_
  have hsecond := Returns.foldlM
    (P := fun _ repair => Bookkeeping repair ∧ ∀ k : Nat, added.2[k]? ≠ none →
      repair.trees[k]? ≠ none)
    added.2.toList [] hadded
    fun pre entry post repair hsplit hrepair => by
      have hentry : added.2[entry.1]? = some entry.2 := getElem?_of_mem_toList (by
        rw [nil_append] at hsplit
        rw [hsplit]
        simp)
      refine (applySubtreeUpdates_returns o es hrepair.1 entry (hrepair.2 _ ?_)).imp
        fun repair' h' => ⟨h'.1, fun k hk => h'.2 k (hrepair.2 k hk)⟩
      rw [hentry]
      simp
  exact hsecond.imp fun repair' h' => h'.1

end RepairWeight

end Panoptes.Repair
