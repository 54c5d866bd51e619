import Panoptes.Sdk.Clock

/-!
# Heaviest subtree fork choice

`HeaviestSubtreeForkChoice` of `core/src/heaviest_subtree_fork_choice.rs`, with `TreeDiff` of
`core/src/tree_diff.rs`: a tree of slots, the latest vote of each validator, and for each slot the
stake voted at it, the stake voted in its subtree and the best slot of its subtree.

* `addNewLeafSlot`, `setRoot`, `addRootParent`, `merge` — the operations on the tree.
* `addVotes` — a batch of votes is turned into a map of updates by slot and label, which is applied
  from the greatest key to the smallest.

Arithmetic is `u64`, checked or wrapping as the build has it.  A hash map is a sorted map here;
nothing depends on the order in which one is iterated.  The time of the last root, which only
decides when the state is logged, is left out.
-/

set_option autoImplicit false

namespace Panoptes.ForkChoice

open Lib Sdk
open Std (ExtTreeMap ExtTreeSet)

/-! ## Stakes -/

/-- `HashMap<Epoch, EpochStakes>` with the epoch schedule: the stake of each vote account by
epoch. -/
structure EpochStakes where
  schedule : EpochSchedule
  stakes : ExtTreeMap Nat (ExtTreeMap Pubkey Nat)

/-- The stake with which a vote of `pubkey` for `slot` counts. -/
def EpochStakes.stake (es : EpochStakes) (pubkey : Pubkey) (slot : Nat) : Nat :=
  match es.stakes[es.schedule.getEpoch slot]? with
  | some epochStakes => epochStakes[pubkey]?.getD 0
  | none => 0

/-! ## State -/

structure ForkInfo where
  /-- Amount of stake that has voted for exactly this slot. -/
  stakeVotedAt : Nat
  /-- Amount of stake that has voted for this slot and the subtree rooted at this slot. -/
  stakeVotedSubtree : Nat
  /-- Best slot in the subtree rooted at this slot. -/
  bestSlot : Nat
  parent : Option Nat
  children : List Nat
  deriving DecidableEq, Repr

structure HeaviestSubtreeForkChoice where
  forkInfos : ExtTreeMap Nat ForkInfo
  latestVotes : ExtTreeMap Pubkey Nat
  root : Nat

namespace HeaviestSubtreeForkChoice

def bestSlot (fc : HeaviestSubtreeForkChoice) (slot : Nat) : Option Nat :=
  fc.forkInfos[slot]?.map (·.bestSlot)

variable (fc : HeaviestSubtreeForkChoice)

def bestOverallSlot : Except Panic Nat := unwrap (fc.bestSlot fc.root)

def stakeVotedSubtree (fc : HeaviestSubtreeForkChoice) (slot : Nat) : Option Nat :=
  fc.forkInfos[slot]?.map (·.stakeVotedSubtree)

def stakeVotedAt (fc : HeaviestSubtreeForkChoice) (slot : Nat) : Option Nat :=
  fc.forkInfos[slot]?.map (·.stakeVotedAt)

def parent (fc : HeaviestSubtreeForkChoice) (slot : Nat) : Option Nat :=
  fc.forkInfos[slot]?.bind (·.parent)

def children (fc : HeaviestSubtreeForkChoice) (slot : Nat) : Option (List Nat) :=
  fc.forkInfos[slot]?.map (·.children)

def containsSlot (slot : Nat) : Bool := fc.forkInfos[slot]?.isSome

def setInfo (slot : Nat) (info : ForkInfo) :
    HeaviestSubtreeForkChoice :=
  { fc with forkInfos := fc.forkInfos.insert slot info }

/-! ## Leaves -/

/-- The loop of `is_best_child`: no sibling is heavier, or as heavy and earlier. -/
def isBestChildLoop (fc : HeaviestSubtreeForkChoice) (maybeBestChild weight : Nat) :
    List Nat → Except Panic Bool
  | [] => .ok true
  | child :: rest => do
    let childWeight ← expect "child must exist in `self.fork_infos`" (fc.stakeVotedSubtree child)
    if childWeight > weight ∨ (weight = childWeight ∧ child < maybeBestChild) then .ok false
    else isBestChildLoop fc maybeBestChild weight rest

def isBestChild (maybeBestChild : Nat) : Except Panic Bool := do
  let weight ← unwrap (fc.stakeVotedSubtree maybeBestChild)
  match fc.parent maybeBestChild with
  | none => .ok true
  | some parent => do
    let siblings ← unwrap (fc.children parent)
    isBestChildLoop fc maybeBestChild weight siblings

/-- The loop of `propagate_new_leaf`: the new leaf replaces the best slot of the parent up the tree.
Each round goes to a parent, which is a smaller slot. -/
def propagateLoop (slot parentBestSlot : Nat) :
    Nat → HeaviestSubtreeForkChoice → Nat → Except Panic HeaviestSubtreeForkChoice
  | 0, _, _ => .error .fuel
  | fuel + 1, fc, ancestor => do
    let info ← unwrap fc.forkInfos[ancestor]?
    if info.bestSlot = parentBestSlot then
      let fc := fc.setInfo ancestor { info with bestSlot := slot }
      match info.parent with
      | none => .ok fc
      | some parent => propagateLoop slot parentBestSlot fuel fc parent
    else .ok fc

def propagateNewLeaf (slot parent : Nat) : Except Panic HeaviestSubtreeForkChoice := do
  let parentBestSlot ← expect
    "parent must exist in self.fork_infos after its child leaf was created" (fc.bestSlot parent)
  let best ← fc.isBestChild slot
  if best then propagateLoop slot parentBestSlot (parent + 1) fc parent else .ok fc

/-- The entry of a slot that is added: an existing one gets a new parent. -/
def leafInfo (slot : Nat) (parent : Option Nat) : ForkInfo :=
  match fc.forkInfos[slot]? with
  | some info => { info with parent := parent }
  | none => ⟨0, 0, slot, parent, []⟩

def addNewLeafSlot (slot : Nat) (parent : Option Nat) : Except Panic HeaviestSubtreeForkChoice :=
  let fc := fc.setInfo slot (fc.leafInfo slot parent)
  match parent with
  | none => .ok fc
  | some parent => do
    let info ← unwrap fc.forkInfos[parent]?
    propagateNewLeaf (fc.setInfo parent { info with children := info.children ++ [slot] }) slot
      parent

def new (root : Nat) : HeaviestSubtreeForkChoice :=
  ⟨(∅ : ExtTreeMap Nat ForkInfo).insert root ⟨0, 0, root, none, []⟩, ∅, root⟩

/-! ## Roots -/

/-- The loop of `subtree_diff`, with the stack of pending slots from its top. -/
def subtreeDiffLoop (children : Nat → Option (List Nat)) (root2 : Nat) :
    Nat → List Nat → ExtTreeSet Nat → Except Panic (ExtTreeSet Nat)
  | 0, _, _ => .error .fuel
  | _ + 1, [], reachable => .ok reachable
  | fuel + 1, current :: pending, reachable =>
    if current = root2 then subtreeDiffLoop children root2 fuel pending reachable
    else do
      let pushed ← expect "slot was discovered earlier, must exist" (children current)
      subtreeDiffLoop children root2 fuel (pushed.reverse ++ pending) (reachable.insert current)

/-- `subtree_diff`: the slots reachable from `root1`, less the subtree at `root2`.  In a tree each
slot is pending once. -/
def subtreeDiff (root1 root2 : Nat) : Except Panic (ExtTreeSet Nat) :=
  if fc.containsSlot root1 then
    subtreeDiffLoop fc.children root2 (fc.forkInfos.size + 1) [root1] ∅
  else .ok ∅

/-- Remove slots, each of which must exist. -/
def removeSlots : List Nat → ExtTreeMap Nat ForkInfo → Except Panic (ExtTreeMap Nat ForkInfo)
  | [], forkInfos => .ok forkInfos
  | slot :: slots, forkInfos => do
    let _ ← expect "Slots reachable from old root must exist in tree" forkInfos[slot]?
    removeSlots slots (forkInfos.erase slot)

def setRoot (newRoot : Nat) : Except Panic HeaviestSubtreeForkChoice := do
  let removeSet ← fc.subtreeDiff fc.root newRoot
  let forkInfos ← removeSlots removeSet.toList fc.forkInfos
  let info ← expect "new root must exist in fork_infos map" forkInfos[newRoot]?
  .ok { fc with
    forkInfos := forkInfos.insert newRoot { info with parent := none }, root := newRoot }

def addRootParent (rootParent : Nat) : Except Panic HeaviestSubtreeForkChoice := do
  let _ ← assert (rootParent < fc.root)
  let _ ← assert (fc.forkInfos[rootParent]? = none)
  let rootInfo ← expect "entry for root must exist" fc.forkInfos[fc.root]?
  let fc' := fc.setInfo fc.root { rootInfo with parent := some rootParent }
  .ok { fc'.setInfo rootParent
    ⟨0, rootInfo.stakeVotedSubtree, rootInfo.bestSlot, none, [fc.root]⟩ with root := rootParent }

end HeaviestSubtreeForkChoice

/-! ## Updates -/

/-- The kinds of updates, in the order of the source. -/
inductive UpdateLabel where
  | aggregate
  | add
  | subtract
  deriving DecidableEq, Repr

/-- The position of a label in the enumeration, which orders the labels. -/
def UpdateLabel.toNat : UpdateLabel → Nat
  | .aggregate => 0
  | .add => 1
  | .subtract => 2

theorem UpdateLabel.toNat_injective : Function.Injective UpdateLabel.toNat := by
  intro a b h
  cases a <;> cases b <;> first | rfl | cases h

instance : LinearOrder UpdateLabel :=
    LinearOrder.lift' UpdateLabel.toNat UpdateLabel.toNat_injective

inductive UpdateOperation where
  | aggregate
  | add (stake : Nat)
  | subtract (stake : Nat)
  deriving DecidableEq, Repr

def UpdateOperation.updateStake (o : Overflow) : UpdateOperation → Nat →
    Except Panic UpdateOperation
  | .aggregate, _ => .error (.explicit "Should not get here")
  | .add stake, newStake => do
    let stake ← addU64 o stake newStake
    .ok (.add stake)
  | .subtract stake, newStake => do
    let stake ← addU64 o stake newStake
    .ok (.subtract stake)

/-- `BTreeMap<(Slot, UpdateLabel), UpdateOperation>`. -/
abbrev UpdateOperations := ExtTreeMap (Nat ×ₗ UpdateLabel) UpdateOperation

instance : Std.TransOrd (Nat ×ₗ UpdateLabel) := inferInstance

/-- `entry(key).and_modify(|update| update.update_stake(stake)).or_insert(fresh)`. -/
def insertStake (o : Overflow) (ops : UpdateOperations) (key : Nat ×ₗ UpdateLabel)
    (fresh : UpdateOperation) (stake : Nat) : Except Panic UpdateOperations :=
  match ops[key]? with
  | none => .ok (ops.insert key fresh)
  | some update => do
    let update ← update.updateStake o stake
    .ok (ops.insert key update)

/-- The aggregation of the ancestors of a slot, up to the first that is already there. -/
def insertAggregates : List Nat → UpdateOperations → UpdateOperations
  | [], ops => ops
  | parent :: ancestors, ops =>
    if ops[toLex (parent, UpdateLabel.aggregate)]?.isSome then ops
    else insertAggregates ancestors (ops.insert (toLex (parent, .aggregate)) .aggregate)

namespace HeaviestSubtreeForkChoice

section

variable (o : Overflow) (es : EpochStakes) (fc : HeaviestSubtreeForkChoice) (ops : UpdateOperations)

/-- The slots an `AncestorIterator` yields, from the parent up. -/
def ancestorsLoop (fc : HeaviestSubtreeForkChoice) : Nat → Nat → Except Panic (List Nat)
  | 0, _ => .error .fuel
  | fuel + 1, slot =>
    match fc.parent slot with
    | none => .ok []
    | some parent => do
      let rest ← fc.ancestorsLoop fuel parent
      .ok (parent :: rest)

def ancestorIterator (startSlot : Nat) : Except Panic (List Nat) :=
  fc.ancestorsLoop (startSlot + 1) startSlot

def insertAggregateOperations (slot : Nat) : Except Panic UpdateOperations := do
  let ancestors ← fc.ancestorIterator slot
  .ok (insertAggregates ancestors ops)

/-- Remove the stake of a validator from its previous vote, if it had one and stake there. -/
def removeOldVote (pubkey : Pubkey) : Option Nat → Except Panic UpdateOperations
  | none => .ok ops
  | some oldLatestVoteSlot =>
    if es.stake pubkey oldLatestVoteSlot > 0 then do
      let ops ← insertStake o ops (toLex (oldLatestVoteSlot, .subtract))
        (.subtract (es.stake pubkey oldLatestVoteSlot)) (es.stake pubkey oldLatestVoteSlot)
      fc.insertAggregateOperations ops oldLatestVoteSlot
    else .ok ops

/-- One round of `generate_update_operations`: votes that are not newer are dropped. -/
def generateUpdate (acc : HeaviestSubtreeForkChoice × UpdateOperations) (vote : Pubkey × Nat) :
    Except Panic (HeaviestSubtreeForkChoice × UpdateOperations) :=
  if vote.2 ≤ acc.1.latestVotes[vote.1]?.getD 0 then .ok acc
  else do
    let fc := { acc.1 with latestVotes := acc.1.latestVotes.insert vote.1 vote.2 }
    let ops ← removeOldVote o es fc acc.2 vote.1 acc.1.latestVotes[vote.1]?
    let ops ← insertStake o ops (toLex (vote.2, .add)) (.add (es.stake vote.1 vote.2))
      (es.stake vote.1 vote.2)
    let ops ← fc.insertAggregateOperations ops vote.2
    .ok (fc, ops)

end

variable (o : Overflow) (fc : HeaviestSubtreeForkChoice)

section

variable (slot stake : Nat) (pubkeyVotes : List (Pubkey × Nat)) (es : EpochStakes)

def generateUpdateOperations : Except Panic (HeaviestSubtreeForkChoice × UpdateOperations) :=
  pubkeyVotes.foldlM (generateUpdate o es) (fc, ∅)

/-- The running values of `aggregate_slot` over the children. -/
structure Aggregate where
  stakeVotedSubtree : Nat
  bestChildStakeVotedSubtree : Nat
  bestChildSlot : Nat
  bestSlot : Nat

def aggregateChild (acc : Aggregate) (child : Nat) : Except Panic Aggregate := do
  let childStake ← unwrap (fc.stakeVotedSubtree child)
  let total ← addU64 o acc.stakeVotedSubtree childStake
  if acc.bestChildSlot = slot ∨ childStake > acc.bestChildStakeVotedSubtree ∨
      (childStake = acc.bestChildStakeVotedSubtree ∧ child < acc.bestChildSlot) then do
    let bestSlot ← expect "`child` must exist in `self.fork_infos`" (fc.bestSlot child)
    .ok ⟨total, childStake, child, bestSlot⟩
  else .ok { acc with stakeVotedSubtree := total }

def aggregateSlot : Except Panic HeaviestSubtreeForkChoice :=
  match fc.forkInfos[slot]? with
  | none => .ok fc
  | some info => do
    let acc ← info.children.foldlM (fc.aggregateChild o slot) ⟨info.stakeVotedAt, 0, slot, slot⟩
    .ok (fc.setInfo slot { info with
      stakeVotedSubtree := acc.stakeVotedSubtree, bestSlot := acc.bestSlot })

def addSlotStake : Except Panic HeaviestSubtreeForkChoice :=
  match fc.forkInfos[slot]? with
  | none => .ok fc
  | some info => do
    let votedAt ← addU64 o info.stakeVotedAt stake
    let votedSubtree ← addU64 o info.stakeVotedSubtree stake
    .ok (fc.setInfo slot { info with stakeVotedAt := votedAt, stakeVotedSubtree := votedSubtree })

def subtractSlotStake : Except Panic HeaviestSubtreeForkChoice :=
  match fc.forkInfos[slot]? with
  | none => .ok fc
  | some info => do
    let votedAt ← subU64 o info.stakeVotedAt stake
    let votedSubtree ← subU64 o info.stakeVotedSubtree stake
    .ok (fc.setInfo slot { info with stakeVotedAt := votedAt, stakeVotedSubtree := votedSubtree })

/-- One update of `process_update_operations`. -/
def processUpdate
    (update : (Nat ×ₗ UpdateLabel) × UpdateOperation) : Except Panic HeaviestSubtreeForkChoice :=
  match update.2 with
  | .aggregate => fc.aggregateSlot o (ofLex update.1).1
  | .add stake => fc.addSlotStake o (ofLex update.1).1 stake
  | .subtract stake => fc.subtractSlotStake o (ofLex update.1).1 stake

/-- `process_update_operations`: from the greatest key to the smallest. -/
def processUpdateOperations (ops : UpdateOperations) : Except Panic HeaviestSubtreeForkChoice :=
  ops.toList.reverse.foldlM (processUpdate o) fc

/-- `add_votes`: the new state and the best slot. -/
def addVotes : Except Panic (HeaviestSubtreeForkChoice × Nat) := do
  let generated ← fc.generateUpdateOperations o pubkeyVotes es
  let fc ← generated.1.processUpdateOperations o generated.2
  let best ← fc.bestOverallSlot
  .ok (fc, best)

end

/-- `merge`: the slots of `other` are added below `mergeLeaf`, then those of its votes that are
newer than votes known here. -/
def merge (other : HeaviestSubtreeForkChoice) (mergeLeaf : Nat) (es : EpochStakes) :
    Except Panic HeaviestSubtreeForkChoice := do
  let _ ← assert (fc.containsSlot mergeLeaf = true)
  let fc ← other.forkInfos.toList.foldlM
    (fun fc entry => fc.addNewLeafSlot entry.1 (some (entry.2.parent.getD mergeLeaf))) fc
  let newVotes := other.latestVotes.toList.filter fun vote =>
    (fc.latestVotes[vote.1]?.map fun latest => decide (vote.2 > latest)).getD false
  let added ← fc.addVotes o newVotes es
  .ok added.1

end HeaviestSubtreeForkChoice

/-! A vote moves the stake of its validator. -/

def oneStake : EpochStakes :=
  ⟨.shortest,
    (∅ : ExtTreeMap Nat (ExtTreeMap Pubkey Nat)).insert 0 ((∅ : ExtTreeMap Pubkey Nat).insert 7 10)⟩

example : (do
    let fc ← (HeaviestSubtreeForkChoice.new 0).addNewLeafSlot 1 (some 0)
    let fc ← fc.addNewLeafSlot 2 (some 0)
    let voted ← fc.addVotes .checked [(7, 1)] oneStake
    let voted ← voted.1.addVotes .checked [(7, 2)] oneStake
    .ok (voted.2, voted.1.stakeVotedSubtree 1, voted.1.stakeVotedSubtree 0)) =
    (.ok (2, some 0, some 10) : Except Panic _) := by decide +kernel

end Panoptes.ForkChoice
