import Panoptes.Lib.Runs
import Panoptes.ForkChoice.Leaf
import Panoptes.ForkChoice.Root
import Panoptes.ForkChoice.Batch

/-!
# Runs of the fork choice

A fork choice starts at a root and then grows leaves, counts votes and moves its root, in any order.

* `Call`, `Call.run` — the calls of a run.
* `Reachable` — the states that runs reach whose calls obey a rule.
* `TreeInvariant` — what the weights and best slots of a tree are, by the latest votes.
* `Call.Allowed`, `Call.Fresh` — the calls of the users of the fork choice, and those that do not
  add a slot some validator has voted for last.

Principal result: in every run of allowed and fresh calls the tree invariant holds, and every
further such call returns.  A run that adds a slot again after it was pruned breaks the invariant.
-/

set_option autoImplicit false

namespace Panoptes.ForkChoice

open Lib Sdk
open Std (ExtTreeMap)
open HeaviestSubtreeForkChoice

/-! ## Calls and runs -/

inductive Call where
  | addNewLeafSlot (slot parent : Nat)
  | addVotes (pubkeyVotes : List (Pubkey × Nat))
  | setRoot (newRoot : Nat)

def Call.run (o : Overflow) (es : EpochStakes) (fc : HeaviestSubtreeForkChoice) :
    Call → Except Panic HeaviestSubtreeForkChoice
  | .addNewLeafSlot slot parent => fc.addNewLeafSlot slot (some parent)
  | .addVotes pubkeyVotes => do
    let voted ← fc.addVotes o pubkeyVotes es
    .ok voted.1
  | .setRoot newRoot => fc.setRoot newRoot

variable (fc : HeaviestSubtreeForkChoice)

/-- A new slot is added below a slot of the tree that is smaller, and the root moves to a slot of
the tree. -/
def Call.Linked : Call → Prop
  | .addNewLeafSlot slot parent =>
    fc.containsSlot slot = false ∧ fc.containsSlot parent = true ∧ parent < slot
  | .addVotes _ => True
  | .setRoot newRoot => fc.containsSlot newRoot = true

/-- The calls of a run: linked, and with votes of different validators for slots of the tree or
below the root. -/
def Call.Allowed (call : Call) : Prop :=
  call.Linked fc ∧ match call with
    | .addVotes pubkeyVotes => (pubkeyVotes.map Prod.fst).Nodup ∧
        ∀ vote ∈ pubkeyVotes, fc.containsSlot vote.2 = true ∨ vote.2 < fc.root
    | _ => True

/-- No slot is added that is the latest vote of a validator. -/
def Call.Fresh : Call → Prop
  | .addNewLeafSlot slot _ => ∀ vote ∈ fc.latestVotes.toList, vote.2 ≠ slot
  | _ => True

instance (fc : HeaviestSubtreeForkChoice) : (call : Call) → Decidable (call.Linked fc)
  | .addNewLeafSlot slot parent => inferInstanceAs
      (Decidable (fc.containsSlot slot = false ∧ fc.containsSlot parent = true ∧ parent < slot))
  | .addVotes _ => inferInstanceAs (Decidable True)
  | .setRoot newRoot => inferInstanceAs (Decidable (fc.containsSlot newRoot = true))

instance (fc : HeaviestSubtreeForkChoice) : (call : Call) → Decidable (call.Allowed fc)
  | .addNewLeafSlot slot parent =>
    inferInstanceAs (Decidable ((Call.addNewLeafSlot slot parent).Linked fc ∧ True))
  | .addVotes pubkeyVotes => inferInstanceAs (Decidable (True ∧ (pubkeyVotes.map Prod.fst).Nodup ∧
      ∀ vote ∈ pubkeyVotes, fc.containsSlot vote.2 = true ∨ vote.2 < fc.root))
  | .setRoot newRoot => inferInstanceAs (Decidable ((Call.setRoot newRoot).Linked fc ∧ True))

instance (fc : HeaviestSubtreeForkChoice) : (call : Call) → Decidable (call.Fresh fc)
  | .addNewLeafSlot slot _ =>
    inferInstanceAs (Decidable (∀ vote ∈ fc.latestVotes.toList, vote.2 ≠ slot))
  | .addVotes _ => inferInstanceAs (Decidable True)
  | .setRoot _ => inferInstanceAs (Decidable True)

/-- The states that a run from `new(root)` reaches whose calls obey a rule. -/
abbrev Reachable (o : Overflow) (es : EpochStakes) (rule : HeaviestSubtreeForkChoice → Call → Prop)
    (root : Nat) : HeaviestSubtreeForkChoice → Prop :=
  Lib.Reachable (Call.run o es) rule (HeaviestSubtreeForkChoice.new root)

/-! ## The calls in sound states -/

variable {table : StakeTable} {fc fc' : HeaviestSubtreeForkChoice} {o : Overflow} {s : Nat}

theorem sound_new (table : StakeTable) (root : Nat) : Sound table (new root) where
  isTree := isTree_new root
  ruled := by
    intro s
    refine ⟨?_, .inl ?_⟩
    · unfold weight votedAt
      rw [entry_new]
      rfl
    · rw [entry_new]
      exact ⟨rfl, rfl⟩
  votedAt_le := by
    intro s _
    unfold votedAt
    rw [entry_new]
    exact Nat.zero_le _

theorem votedAt_of_not_mem (h : s ∉ fc.slots) : fc.votedAt s = 0 := by
  unfold votedAt
  rw [entry_of_not_mem h]

theorem Sound.addNewLeafSlot (h : Sound table fc) {slot parent : Nat}
    (hlinked : (Call.addNewLeafSlot slot parent).Linked fc) :
    ∃ fc', fc.addNewLeafSlot slot (some parent) = .ok fc' ∧ Sound table fc' ∧
      fc'.slots = insert slot fc.slots ∧ fc'.latestVotes = fc.latestVotes ∧
      ∀ s, fc'.votedAt s = fc.votedAt s := by
  obtain ⟨hslot, hparent, hlt⟩ := hlinked
  have hslot' : slot ∉ fc.slots := fun hmem => by
    rw [containsSlot_iff.mpr hmem] at hslot
    cases hslot
  obtain ⟨fc', hrun, htree, -, hslots, hlatest, hat, hruled⟩ :=
    addNewLeafSlot_returns hslot' (containsSlot_iff.mp hparent) h.isTree hlt
  refine ⟨fc', hrun, ⟨htree, hruled h.ruled, fun s hs => ?_⟩, hslots, hlatest, hat⟩
  rw [hat, hlatest]
  rw [hslots] at hs
  rcases Finset.mem_insert.mp hs with rfl | hs
  · rw [votedAt_of_not_mem hslot']
    exact Nat.zero_le _
  · exact h.votedAt_le s hs

theorem Sound.setRoot (h : Sound table fc) {newRoot : Nat}
    (hlinked : (Call.setRoot newRoot).Linked fc) :
    ∃ fc', fc.setRoot newRoot = .ok fc' ∧ Sound table fc' ∧ fc'.slots ⊆ fc.slots ∧
      fc'.latestVotes = fc.latestVotes ∧ ∀ s ∈ fc'.slots, fc'.votedAt s = fc.votedAt s := by
  have hmem := containsSlot_iff.mp hlinked
  obtain ⟨fc', hrun, htree, -, hlatest, hslots, hat, hruled⟩ := setRoot_returns h.isTree hmem
  have hsub : fc'.slots ⊆ fc.slots := fun s hs => h.isTree.below_mem hmem ((hslots s).mp hs)
  refine ⟨fc', hrun, ⟨htree, hruled h.ruled, fun s hs => ?_⟩, hsub, hlatest, hat⟩
  rw [hat s hs, hlatest]
  exact h.votedAt_le s (hsub hs)

/-! ## The tree invariant -/

/-- **The tree invariant**: the links describe one tree; the stake voted at a slot is that of the
validators whose latest vote it is; the stake voted in a subtree is the stake voted at its root and
in the subtrees of the children; the best slot is the leaf reached through best children. -/
structure TreeInvariant (es : EpochStakes) (fc : HeaviestSubtreeForkChoice) : Prop where
  isTree : fc.IsTree
  stakeVotedAt : ∀ s, fc.containsSlot s = true →
    fc.stakeVotedAt s = some (votesAt es fc.latestVotes s)
  stakeVotedSubtree : ∀ s children, fc.children s = some children →
    fc.stakeVotedSubtree s = some (votesAt es fc.latestVotes s + (children.map fc.weight).sum)
  bestSlot : ∀ s, fc.containsSlot s = true → ∃ best, fc.bestSlot s = some best ∧ BestPath fc s best

/-- A sound state with exactly the stake of the latest votes at each slot. -/
structure Exact (table : StakeTable)
    (fc : HeaviestSubtreeForkChoice) : Prop extends Sound table fc where
  votedAt_eq : ∀ s ∈ fc.slots, fc.votedAt s = votesAt table.toEpochStakes fc.latestVotes s

theorem Exact.treeInvariant (h : Exact table fc) : TreeInvariant table.toEpochStakes fc where
  isTree := h.isTree
  stakeVotedAt := by
    intro s hs
    have hmem := containsSlot_iff.mp hs
    rw [stakeVotedAt_of_mem hmem, h.votedAt_eq s hmem]
  stakeVotedSubtree := by
    intro s children hchildren
    have hmem : s ∈ fc.slots := by
      by_contra hmem
      unfold HeaviestSubtreeForkChoice.children at hchildren
      rw [getElem?_of_not_mem hmem] at hchildren
      cases hchildren
    rw [children_of_mem hmem] at hchildren
    cases hchildren
    rw [stakeVotedSubtree_of_mem hmem, (h.ruled s).weight, h.votedAt_eq s hmem]
  bestSlot := by
    intro s hs
    exact ⟨_, bestSlot_of_mem (containsSlot_iff.mp hs),
      bestPath h.isTree (fun s => (h.ruled s).best) s⟩

def Call.Clean (fc : HeaviestSubtreeForkChoice) (call : Call) : Prop :=
  call.Allowed fc ∧ call.Fresh fc

instance (fc : HeaviestSubtreeForkChoice) (call : Call) : Decidable (call.Clean fc) :=
  inferInstanceAs (Decidable (call.Allowed fc ∧ call.Fresh fc))

theorem votesAt_eq_zero {es : EpochStakes} {latest : ExtTreeMap Pubkey Nat}
    (h : ∀ vote ∈ latest.toList, vote.2 ≠ s) : votesAt es latest s = 0 := by
  unfold votesAt
  refine Finset.sum_eq_zero fun pubkey hmem => ?_
  obtain ⟨slot, hslot⟩ := Option.ne_none_iff_exists'.mp (mem_keys_toFinset.mp hmem)
  rw [hslot]
  exact if_neg (h (pubkey, slot) (ExtTreeMap.mem_toList_iff_getElem?_eq_some.mpr hslot))

/-- In a batch with one vote of each validator, only stake that was voted at a slot before departs
from it: the validators in `voted`, whose votes have been counted, stay. -/
theorem departing_add_le (es : EpochStakes) (votes : List (Pubkey × Nat))
    (latest : ExtTreeMap Pubkey Nat) (voted : Finset Pubkey) (hnodup : (votes.map Prod.fst).Nodup)
    (hvoted : ∀ pubkey ∈ voted, pubkey ∉ votes.map Prod.fst) (s : Nat) :
    departing es latest votes s +
      (∑ pubkey ∈ voted, (latest[pubkey]?).elim 0 fun slot =>
        if slot = s then es.stake pubkey slot else 0) ≤ votesAt es latest s := by
  induction votes generalizing latest voted with
  | nil =>
    simp only [departing, Nat.zero_add]
    exact sum_le_mapSum _ voted
  | cons vote votes ih =>
    obtain ⟨hnot, hnodup⟩ := List.nodup_cons.mp hnodup
    have hfresh : vote.1 ∉ voted := fun hmem => hvoted _ hmem (List.mem_cons_self ..)
    have hstep := castVote_votesAt es latest vote s
    have hrest := ih (castVote latest vote) (insert vote.1 voted) hnodup fun pubkey hmem => by
      rcases Finset.mem_insert.mp hmem with rfl | hmem
      · exact hnot
      · exact fun hin => hvoted pubkey hmem (List.mem_cons_of_mem _ hin)
    rw [Finset.sum_insert hfresh] at hrest
    have hsame : ∀ pubkey ∈ voted, ((castVote latest vote)[pubkey]?).elim 0
        (fun slot => if slot = s then es.stake pubkey slot else 0) =
        (latest[pubkey]?).elim 0 fun slot => if slot = s then es.stake pubkey slot else 0 := by
      intro pubkey hmem
      have hne : pubkey ≠ vote.1 := fun heq => hfresh (heq ▸ hmem)
      unfold castVote
      split
      · rfl
      · rw [getElem?_insert_ite, if_neg hne]
    rw [Finset.sum_congr rfl hsame] at hrest
    have harrives : arrives es latest vote s ≤ ((castVote latest vote)[vote.1]?).elim 0
        fun slot => if slot = s then es.stake vote.1 slot else 0 := by
      unfold arrives
      by_cases hnew : vote.2 ≤ latest[vote.1]?.getD 0
      · rw [if_pos hnew]
        exact Nat.zero_le _
      · rw [if_neg hnew, castVote_of_newer hnew, getElem?_insert_ite, if_pos rfl, Option.elim_some]
        by_cases hs : vote.2 = s
        · rw [if_pos hs, if_pos hs, hs]
        · rw [if_neg hs, if_neg hs]
    simp only [departing]
    omega

theorem departing_le_votesAt {es : EpochStakes} {votes : List (Pubkey × Nat)}
    (latest : ExtTreeMap Pubkey Nat) (hnodup : (votes.map Prod.fst).Nodup) (s : Nat) :
    departing es latest votes s ≤ votesAt es latest s := by
  have h := departing_add_le es votes latest ∅ hnodup (by simp) s
  exact h

/-- **A clean call** returns in a build with overflow checks and in one without, and keeps the state
exact. -/
theorem Exact.run (h : Exact table fc) (o : Overflow) {call : Call} (hclean : call.Clean fc) :
    ∃ fc', call.run o table.toEpochStakes fc = .ok fc' ∧ Exact table fc' := by
  cases call with
  | addNewLeafSlot slot parent =>
    obtain ⟨⟨hlinked, -⟩, hfresh⟩ := hclean
    obtain ⟨fc', hrun, hsound, hslots, hlatest, hat⟩ := h.toSound.addNewLeafSlot hlinked
    refine ⟨fc', hrun, hsound, fun s hs => ?_⟩
    rw [hat, hlatest]
    by_cases hmem : s ∈ fc.slots
    · exact h.votedAt_eq s hmem
    · have hslot : s = slot := (Finset.mem_insert.mp (hslots ▸ hs)).resolve_right hmem
      rw [votedAt_of_not_mem hmem, votesAt_eq_zero (hslot ▸ hfresh)]
  | addVotes votes =>
    obtain ⟨⟨-, hnodup, -⟩, -⟩ := hclean
    obtain ⟨fc', hrun, hsame, -, hsound, hmove⟩ := h.toSound.addVotes o votes
      fun s hs => h.votedAt_eq s hs ▸ departing_le_votesAt fc.latestVotes hnodup s
    refine ⟨fc', ?_, hsound, fun s hs => ?_⟩
    · simp only [Call.run, hrun, bind, Except.bind]
    · rw [hsame.slots] at hs
      have hmoves := hmove s hs
      have heq := h.votedAt_eq s hs
      omega
  | setRoot newRoot =>
    obtain ⟨⟨hlinked, -⟩, -⟩ := hclean
    obtain ⟨fc', hrun, hsound, hsub, hlatest, hat⟩ := h.toSound.setRoot hlinked
    refine ⟨fc', hrun, hsound, fun s hs => ?_⟩
    rw [hat s hs, hlatest]
    exact h.votedAt_eq s (hsub hs)

theorem exact_new (table : StakeTable) (root : Nat) : Exact table (new root) := by
  refine ⟨sound_new table root, fun s _ => ?_⟩
  have hempty : votesAt table.toEpochStakes (new root).latestVotes s = 0 :=
    votesAt_eq_zero fun vote hmem => by
      cases hmem
  rw [hempty]
  unfold votedAt
  rw [entry_new]

/-- **The tree invariant holds in every clean run**, and every clean call in a state reached
returns: no unwrap fails, and nothing underflows in a build that checks. -/
theorem forkChoice_treeInvariant (table : StakeTable) (o : Overflow) (root : Nat)
    {fc : HeaviestSubtreeForkChoice} (h : Reachable o table.toEpochStakes Call.Clean root fc) :
    TreeInvariant table.toEpochStakes fc ∧
      ∀ call : Call, call.Clean fc → ∃ fc', call.run o table.toEpochStakes fc = .ok fc' := by
  have hexact : Exact table fc := by
    refine h.invariant (exact_new table root) fun fc call fc' hfc hclean hrun => ?_
    obtain ⟨fc₁, hrun₁, hexact⟩ := hfc.run o hclean
    rw [hrun] at hrun₁
    cases hrun₁
    exact hexact
  refine ⟨hexact.treeInvariant, fun call hclean => ?_⟩
  obtain ⟨fc', hrun, -⟩ := hexact.run o hclean
  exact ⟨fc', hrun⟩

/-! ## One validator -/

/-- The stakes of one epoch, with a sum that fits. -/
def epochTable (stakes : ExtTreeMap Pubkey Nat)
    (h : mapSum stakes (fun _ stake => stake) < U64) : StakeTable where
  schedule := .shortest
  stakes := (∅ : ExtTreeMap Nat (ExtTreeMap Pubkey Nat)).insert 0 stakes
  fits := by
    intro voters slot
    refine lt_of_le_of_lt (Finset.sum_le_sum fun pubkey _ => ?_)
      (lt_of_le_of_lt (sum_le_mapSum _ voters) h)
    unfold EpochStakes.stake
    split
    · rename_i epochStakes hstakes
      rw [getElem?_insert_ite] at hstakes
      split at hstakes
      · cases hstakes
        cases stakes[pubkey]? <;> rfl
      · simp at hstakes
    · exact Nat.zero_le _

/-- The one validator of `oneStake`. -/
def oneStakeTable : StakeTable :=
  epochTable ((∅ : ExtTreeMap Pubkey Nat).insert 7 10) (by decide +kernel)

/-- Two forks, a vote for one of them that then moves to the other, and a new root. -/
def switchingCalls : List Call :=
  [.addNewLeafSlot 1 0, .addNewLeafSlot 2 0, .addVotes [(7, 1)], .addVotes [(7, 2)], .setRoot 2]

def switched : HeaviestSubtreeForkChoice :=
  (runCalls (Call.run .checked oneStake) Call.Clean (new 0) switchingCalls).getD (new 0)

theorem runCalls_switchingCalls : runCalls (Call.run .checked oneStake) Call.Clean (new 0)
    switchingCalls = some switched :=
  runCalls_eq_some (by decide +kernel)

theorem forkChoice_treeInvariant_switched : TreeInvariant oneStake switched ∧
    ∀ call : Call, call.Clean switched → ∃ fc', call.run .checked oneStake switched = .ok fc' :=
  forkChoice_treeInvariant oneStakeTable .checked 0
    (Reachable.start.runCalls runCalls_switchingCalls)

/-- A slot is pruned and then added again, below another parent. -/
def staleCalls : List Call :=
  [.addNewLeafSlot 1 0, .addNewLeafSlot 2 0, .addVotes [(7, 2)], .setRoot 1, .addNewLeafSlot 2 1]

/-- Two validators with half of the range of a `u64` each. -/
def halfStakes : EpochStakes :=
  ⟨.shortest,
    (∅ : ExtTreeMap Nat (ExtTreeMap Pubkey Nat)).insert 0
      (((∅ : ExtTreeMap Pubkey Nat).insert 7 (2 ^ 63)).insert 8 (2 ^ 63))⟩

/-- **A stale latest vote breaks the invariant**: after a slot was pruned and added again, the stake
of its voter is not voted at it, and the next vote of that voter underflows.  And stakes that do not
fit a `u64` overflow. -/
theorem forkChoice_stale_vote :
    (∃ fc, Reachable .checked oneStake Call.Allowed 0 fc ∧
      fc.stakeVotedAt 2 = some 0 ∧ votesAt oneStake fc.latestVotes 2 = 10) ∧
    (∃ fc, Reachable .checked oneStake Call.Allowed 0 fc ∧
      (Call.addVotes [(7, 3)]).Allowed fc ∧
      ((Call.addVotes [(7, 3)]).run .checked oneStake fc).map (fun _ => ()) = .error .overflow) ∧
    ∃ fc, Reachable .checked halfStakes Call.Allowed 0 fc ∧
      (Call.addVotes [(7, 1), (8, 1)]).Allowed fc ∧
      ((Call.addVotes [(7, 1), (8, 1)]).run .checked halfStakes fc).map (fun _ => ()) =
        .error .overflow := by
  refine ⟨exists_reachable staleCalls ?_, exists_reachable (staleCalls ++ [.addNewLeafSlot 3 2]) ?_,
    exists_reachable [.addNewLeafSlot 1 0] ?_⟩
  · decide +kernel
  · decide +kernel
  · decide +kernel

end Panoptes.ForkChoice
