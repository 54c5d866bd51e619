import Panoptes.ForkChoice.Model

/-!
# Repair weight

`RepairWeight` of `core/src/repair_weight.rs`: the slots that votes were seen for, kept in one tree
for the root and one for each orphan fork, with the tree of each slot and the slots known not to
descend from the root.

* `addVotes` — each voted slot is chained to a tree by the ancestors the blockstore knows, or starts
  a new one; the votes are then added to the trees.
* `getBestOrphans` — orphan trees are extended downward and merged as far as ancestors are known.
* `setRoot` — trees and slots that do not descend from the new root are purged.

The blockstore answers one question here, the parent of a slot (`AncestorIterator`), and lists its
orphans; a failure of its database is left out.
-/

set_option autoImplicit false

namespace Panoptes.Repair

open Lib Sdk ForkChoice
open Std (ExtTreeMap)

/-! ## The blockstore -/

/-- The part of `SlotMeta` that ancestry needs. -/
structure SlotMeta where
  parentSlot : Nat

def SlotMeta.isParentSet (slotMeta : SlotMeta) : Bool := slotMeta.parentSlot ≠ U64 - 1

/-- A blockstore whose parent links point to smaller slots.  The genesis slot 0 is its own
parent. -/
structure Blockstore where
  metaOf : Nat → Option SlotMeta
  orphans : List Nat
  parent_lt : ∀ slot slotMeta, slot ≠ 0 → metaOf slot = some slotMeta →
    slotMeta.isParentSet = true → slotMeta.parentSlot < slot

/-- The slot that an `AncestorIterator` goes to from `slot`. -/
def Blockstore.parent (blockstore : Blockstore) (slot : Nat) : Option Nat :=
  (blockstore.metaOf slot).bind fun slotMeta =>
    if slotMeta.isParentSet = true ∧ slot ≠ 0 then some slotMeta.parentSlot else none

def Blockstore.orphansIterator (blockstore : Blockstore) (slot : Nat) : List Nat :=
  blockstore.orphans.filter (slot ≤ ·)

/-! ## State -/

structure RepairWeight where
  /-- From a root to the tree at that root. -/
  trees : ExtTreeMap Nat HeaviestSubtreeForkChoice
  /-- From a slot to the root of the tree that contains it. -/
  slotToTree : ExtTreeMap Nat Nat
  unrootedSlots : Finset Nat
  root : Nat

namespace RepairWeight

def new (root : Nat) : RepairWeight :=
  ⟨(∅ : ExtTreeMap Nat HeaviestSubtreeForkChoice).insert root (HeaviestSubtreeForkChoice.new root),
    (∅ : ExtTreeMap Nat Nat).insert root root, ∅, root⟩

variable (repair : RepairWeight)

def isUnrootedSlot (slot : Nat) : Bool :=
  slot < repair.root ∨ slot ∈ repair.unrootedSlots

def insertNewTree (newTreeRoot : Nat) : Except Panic RepairWeight := do
  let _ ← assert (repair.trees[newTreeRoot]?.isNone = true)
  .ok { repair with
    slotToTree := repair.slotToTree.insert newTreeRoot newTreeRoot
    trees := repair.trees.insert newTreeRoot (HeaviestSubtreeForkChoice.new newTreeRoot) }

/-! ## Ancestors -/

/-- The loop of `find_ancestor_subtree_of_slot` at ancestor `current`, with the ancestors found so
far from the earliest on.  Each round goes to a smaller slot. -/
def findAncestorLoop (repair : RepairWeight) (blockstore : Blockstore) :
    Nat → Option Nat → List Nat → Except Panic (List Nat × Option Nat)
  | 0, _, _ => .error .fuel
  | _ + 1, none, ancestorsToAdd => .ok (ancestorsToAdd, none)
  | fuel + 1, some a, ancestorsToAdd =>
    if repair.isUnrootedSlot a then .ok (a :: ancestorsToAdd, none)
    else match repair.slotToTree[a]? with
      | some treeToMerge => .ok (a :: ancestorsToAdd, some treeToMerge)
      | none => repair.findAncestorLoop blockstore fuel (blockstore.parent a) (a :: ancestorsToAdd)

def findAncestorSubtreeOfSlot (blockstore : Blockstore) (slot : Nat) :
    Except Panic (List Nat × Option Nat) :=
  repair.findAncestorLoop blockstore (slot + 1) (blockstore.parent slot) []

/-! ## Votes -/

/-- The slots of a chain are added to a tree, each below the one before it, and to
`slot_to_tree`. -/
def addChain (treeRoot : Nat) : List Nat → HeaviestSubtreeForkChoice → ExtTreeMap Nat Nat →
    Except Panic (HeaviestSubtreeForkChoice × ExtTreeMap Nat Nat)
  | parent :: slot :: rest, tree, slotToTree => do
    let tree ← tree.addNewLeafSlot slot (some parent)
    addChain treeRoot (slot :: rest) tree (slotToTree.insert slot treeRoot)
  | _, tree, slotToTree => .ok (tree, slotToTree)

/-- `HashMap<Slot, HashMap<Pubkey, Slot>>`: for each tree the latest slot of each voter. -/
abbrev SubtreeUpdates := ExtTreeMap Nat (ExtTreeMap Pubkey Nat)

def addSubtreeUpdates (updates : SubtreeUpdates) (treeRoot slot : Nat) (pubkeyVotes : List Pubkey) :
    SubtreeUpdates :=
  updates.insert treeRoot (pubkeyVotes.foldl
    (fun subtreeUpdates pubkey =>
      subtreeUpdates.insert pubkey (max (subtreeUpdates[pubkey]?.getD 0) slot))
    (updates[treeRoot]?.getD ∅))

/-- The tree of a slot if it has one, or what the ancestors of the slot lead to. -/
def findTree (blockstore : Blockstore) (slot : Nat) : Except Panic (List Nat × Option Nat) :=
  match repair.slotToTree[slot]? with
  | some treeRoot => .ok ([], some treeRoot)
  | none => repair.findAncestorSubtreeOfSlot blockstore slot

/-- The slot and its new ancestors are chained to the tree at `treeRoot`. -/
def chainToTree (newAncestors : List Nat) (treeRoot slot : Nat) : Except Panic RepairWeight := do
  let tree ← expect "If tree root was found, it must exist in `self.trees`" repair.trees[treeRoot]?
  let chained ← addChain treeRoot (newAncestors ++ [slot]) tree repair.slotToTree
  .ok { repair with trees := repair.trees.insert treeRoot chained.1, slotToTree := chained.2 }

/-- One round of the first loop of `add_votes`. -/
def addSlotVotes (blockstore : Blockstore) (acc : RepairWeight × SubtreeUpdates)
    (vote : Nat × List Pubkey) : Except Panic (RepairWeight × SubtreeUpdates) :=
  if vote.1 < acc.1.root ∨ vote.1 ∈ acc.1.unrootedSlots then .ok acc
  else do
    let found ← acc.1.findTree blockstore vote.1
    let treeRoot := found.2.getD (found.1.head?.getD vote.1)
    if acc.1.isUnrootedSlot treeRoot then
      .ok ({ acc.1 with
        unrootedSlots := acc.1.unrootedSlots ∪ (found.1 ++ [vote.1]).toFinset }, acc.2)
    else do
      let repair ← if found.2.isNone then acc.1.insertNewTree treeRoot else .ok acc.1
      let repair ← repair.chainToTree found.1 treeRoot vote.1
      .ok (repair, addSubtreeUpdates acc.2 treeRoot vote.1 vote.2)

variable (o : Overflow)

/-- One round of the second loop of `add_votes`. -/
def applySubtreeUpdates (es : EpochStakes) (repair : RepairWeight)
    (entry : Nat × ExtTreeMap Pubkey Nat) : Except Panic RepairWeight := do
  let tree ← expect "`slot_to_tree` and `self.trees` must be in sync" repair.trees[entry.1]?
  let voted ← tree.addVotes o entry.2.toList es
  .ok { repair with trees := repair.trees.insert entry.1 voted.1 }

def addVotes (repair : RepairWeight) (blockstore : Blockstore)
    (votes : List (Nat × List Pubkey)) (es : EpochStakes) : Except Panic RepairWeight := do
  let added ← votes.foldlM (addSlotVotes blockstore) (repair, ∅)
  added.2.toList.foldlM (applySubtreeUpdates o es) added.1

/-! ## Roots -/

def removeTreeSlot (min : Nat) (repair : RepairWeight) (slot : Nat) :
    Except Panic RepairWeight := do
  let _ ← expect "Item in tree must exist in `slot_to_tree`" repair.slotToTree[slot]?
  .ok { repair with
    slotToTree := repair.slotToTree.erase slot
    unrootedSlots := if slot ≥ min then insert slot repair.unrootedSlots else repair.unrootedSlots }

def removeTreeSlots (slotsToRemove : List Nat) (min : Nat) : Except Panic RepairWeight :=
  slotsToRemove.foldlM (removeTreeSlot min) repair

def renameTreeSlot (root2 : Nat) (repair : RepairWeight) (slot : Nat) :
    Except Panic RepairWeight := do
  let _ ← expect "Nodes in tree must exist in `self.slot_to_tree`" repair.slotToTree[slot]?
  .ok { repair with slotToTree := repair.slotToTree.insert slot root2 }

def renameTreeRoot (tree1 : HeaviestSubtreeForkChoice) (root2 : Nat) : Except Panic RepairWeight :=
  tree1.forkInfos.keys.foldlM (renameTreeSlot root2) repair

def purgeTree (min : Nat) (repair : RepairWeight) (subtreeRoot : Nat) :
    Except Panic RepairWeight := do
  let subtree ← expect "Must exist, was found in `self.trees` above" repair.trees[subtreeRoot]?
  { repair with trees := repair.trees.erase subtreeRoot }.removeTreeSlots subtree.forkInfos.keys min

/-- The tree that contains the new root is cut down to the subtree at it, or a new tree is made. -/
def moveRoot (newRoot : Nat) : Option Nat → Except Panic RepairWeight
  | some newRootTreeRoot => do
    let newRootTree ← expect "Found slot root earlier in self.slot_to_trees, treee must exist"
      repair.trees[newRootTreeRoot]?
    let unrootedSlots ← newRootTree.subtreeDiff newRootTreeRoot newRoot
    let repair ← { repair with trees := repair.trees.erase newRootTreeRoot }.removeTreeSlots
      unrootedSlots.toList newRoot
    let newRootTree ← newRootTree.setRoot newRoot
    let repair ← repair.renameTreeRoot newRootTree newRoot
    .ok { repair with trees := repair.trees.insert newRoot newRootTree }
  | none => repair.insertNewTree newRoot

def setRoot (newRoot : Nat) : Except Panic RepairWeight := do
  let _ ← assert (repair.root ≤ newRoot)
  if newRoot = repair.root then .ok repair
  else do
    let newRootTreeRoot := repair.slotToTree[newRoot]?
    let subtreesToPurge := repair.trees.keys.filter fun subtreeRoot =>
      subtreeRoot < newRoot ∧ some subtreeRoot ≠ newRootTreeRoot
    let repair ← subtreesToPurge.foldlM (purgeTree newRoot) repair
    let repair ← repair.moveRoot newRoot newRootTreeRoot
    .ok { repair with unrootedSlots := repair.unrootedSlots.filter (newRoot ≤ ·), root := newRoot }

/-! ## Orphans -/

def mergeTrees (es : EpochStakes) (repair : RepairWeight) (root1 root2 mergeLeaf : Nat) :
    Except Panic RepairWeight := do
  let tree1 ← expect "tree to merge must exist" repair.trees[root1]?
  let repair ← { repair with trees := repair.trees.erase root1 }.renameTreeRoot tree1 root2
  let tree2 ← expect "tree to be merged into must exist" repair.trees[root2]?
  let tree2 ← tree2.merge o tree1 mergeLeaf es
  .ok { repair with trees := repair.trees.insert root2 tree2 }

/-- An orphan tree grows downward by the ancestors of its root, the latest first. -/
def addRootParents (treeRoot : Nat) : List Nat → HeaviestSubtreeForkChoice → ExtTreeMap Nat Nat →
    Except Panic (HeaviestSubtreeForkChoice × ExtTreeMap Nat Nat)
  | [], tree, slotToTree => .ok (tree, slotToTree)
  | ancestor :: rest, tree, slotToTree => do
    let tree ← tree.addRootParent ancestor
    addRootParents treeRoot rest tree (slotToTree.insert ancestor treeRoot)

/-- The ancestors of the root of an orphan tree are added to it, but not the leaf of the tree it
will be merged into. -/
def extendOrphan (orphanTreeRoot : Nat) (newAncestors : List Nat)
    (parentTreeRoot : Option Nat) : Except Panic RepairWeight := do
  let heaviestTree ← expect "Orphan must exist" repair.trees[orphanTreeRoot]?
  let extended ← addRootParents orphanTreeRoot
    (newAncestors.drop (if parentTreeRoot.isSome then 1 else 0)).reverse heaviestTree
      repair.slotToTree
  .ok { repair with
    trees := repair.trees.insert orphanTreeRoot extended.1, slotToTree := extended.2 }

/-- An orphan tree that was extended gets its earliest slot as key. -/
def renameOrphan (orphanTreeRoot : Nat) : Option Nat → Except Panic (RepairWeight × Nat)
  | some earliestAncestor => do
    let orphanTree ← expect "orphan tree must exist" repair.trees[orphanTreeRoot]?
    let repair ← { repair with trees := repair.trees.erase orphanTreeRoot }.renameTreeRoot
      orphanTree
      earliestAncestor
    let _ ← assert (repair.trees[earliestAncestor]?.isNone = true)
    .ok ({ repair with trees := repair.trees.insert earliestAncestor orphanTree }, earliestAncestor)
  | none => .ok (repair, orphanTreeRoot)

/-- The loop of `update_orphan_ancestors`.  Each round goes to a tree with a smaller root. -/
def orphanLoop (o : Overflow) (es : EpochStakes) (blockstore : Blockstore) :
    Nat → RepairWeight → Nat → Except Panic (RepairWeight × Nat)
  | 0, _, _ => .error .fuel
  | fuel + 1, repair, orphanTreeRoot =>
    if orphanTreeRoot = repair.root then .ok (repair, orphanTreeRoot)
    else do
      let found ← repair.findAncestorSubtreeOfSlot blockstore orphanTreeRoot
      let repair ← repair.extendOrphan orphanTreeRoot found.1 found.2
      match found.2 with
      | some parentTreeRoot => do
        let mergeLeaf ← expect "Must exist leaf to merge to if `tree_to_merge`.is_some()"
          found.1.head?
        let repair ← repair.mergeTrees o es orphanTreeRoot parentTreeRoot mergeLeaf
        orphanLoop o es blockstore fuel repair parentTreeRoot
      | none => repair.renameOrphan orphanTreeRoot found.1.head?

/-- `update_orphan_ancestors`: the new state and the earliest known ancestor, unless the tree was
purged. -/
def updateOrphanAncestors (repair : RepairWeight) (blockstore : Blockstore)
    (orphanTreeRoot : Nat) (es : EpochStakes) : Except Panic (RepairWeight × Option Nat) := do
  let _ ← assert (repair.trees[orphanTreeRoot]?.isSome = true)
  let updated ← orphanLoop o es blockstore (orphanTreeRoot + 1) repair orphanTreeRoot
  if updated.1.isUnrootedSlot updated.2 then do
    let repair ← updated.1.purgeTree updated.1.root updated.2
    .ok (repair, none)
  else .ok (updated.1, some updated.2)

def treeWeights : Except Panic (List (Nat × Nat)) :=
  repair.trees.toList.mapM fun entry => do
    let weight ← expect "Tree must have weight at its own root" (entry.2.stakeVotedSubtree entry.1)
    .ok (entry.1, weight)

/-- `sort_by_stake_weight_slot`: heavier, smaller slots come first. -/
def sortByStakeWeightSlot (slotStakeVoted : List (Nat × Nat)) : List (Nat × Nat) :=
  slotStakeVoted.insertionSort fun a b => b.2 < a.2 ∨ (a.2 = b.2 ∧ a.1 ≤ b.1)

/-- One tree in `get_best_orphans`, with the orphans found so far, which are also the repairs. -/
def visitOrphan (es : EpochStakes) (blockstore : Blockstore) (maxNewOrphans : Nat)
    (acc : RepairWeight × List Nat) (treeRoot : Nat) : Except Panic (RepairWeight × List Nat) :=
  if acc.2.length ≥ maxNewOrphans ∨ treeRoot = acc.1.root ∨ acc.1.trees[treeRoot]?.isNone then
    .ok acc
  else do
    let updated ← acc.1.updateOrphanAncestors o blockstore treeRoot es
    match updated.2 with
    | some newOrphanRoot =>
      if newOrphanRoot ≠ updated.1.root ∧ newOrphanRoot ∉ acc.2 then
        .ok (updated.1, acc.2 ++ [newOrphanRoot])
      else .ok (updated.1, acc.2)
    | none => .ok (updated.1, acc.2)

/-- Further orphans of the blockstore, up to the limit. -/
def fillOrphans (maxNewOrphans : Nat) (bestOrphans : List Nat) (newOrphan : Nat) : List Nat :=
  if bestOrphans.length ≥ maxNewOrphans ∨ newOrphan ∈ bestOrphans then bestOrphans
  else bestOrphans ++ [newOrphan]

/-- `get_best_orphans`: the new state and the orphans to repair. -/
def getBestOrphans (repair : RepairWeight) (blockstore : Blockstore) (es : EpochStakes)
    (maxNewOrphans : Nat) : Except Panic (RepairWeight × List Nat) := do
  let stakeWeightedTrees ← repair.treeWeights
  let visited ← ((sortByStakeWeightSlot stakeWeightedTrees).map Prod.fst).foldlM
    (visitOrphan o es blockstore maxNewOrphans) (repair, [])
  .ok (visited.1,
    (blockstore.orphansIterator (visited.1.root + 1)).foldl (fillOrphans maxNewOrphans) visited.2)

end RepairWeight

end Panoptes.Repair
