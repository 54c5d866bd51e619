import Panoptes.Repair.AddVotes

/-!
# Orphans in repair weight

`get_best_orphans` extends the orphan trees downward by the ancestors that the blockstore has
learnt, and merges each into the tree that its ancestors lead to.

* `addRootParents_returns` — an orphan tree grows downward.
* `Combined`, `mergeTrees_returns`, `renameOrphan_returns` — it becomes a part of another tree, or
  gets a new key.
* `orphanLoop_returns` — the loop ends; only a tree whose root is unrooted may break the
  bookkeeping.
* `getBestOrphans_returns` — such a tree is purged, so `get_best_orphans` keeps the bookkeeping
  invariant, and can only abort on an overflow.
-/

set_option autoImplicit false

namespace Panoptes.Repair

open Lib Sdk ForkChoice List
open Std (ExtTreeMap)

namespace RepairWeight

variable {repair repair' : RepairWeight} {fc fc' : HeaviestSubtreeForkChoice}
  {k orphan parent : Nat} {l : List Nat} {map : ExtTreeMap Nat Nat}

/-! ## Extending an orphan tree -/

/-- The tree and the map after the ancestors `l` of its root, the latest first, were added to a
tree. -/
structure Raised (treeRoot : Nat) (l : List Nat) (fc : HeaviestSubtreeForkChoice)
    (map : ExtTreeMap Nat Nat)
    (fc' : HeaviestSubtreeForkChoice) (map' : ExtTreeMap Nat Nat) : Prop where
  isTree : fc'.IsTree
  root : fc'.root = l.getLast?.getD fc.root
  slots : ∀ s, s ∈ fc'.slots ↔ s ∈ fc.slots ∨ s ∈ l
  slotToTree : ∀ s : Nat, map'[s]? = if s ∈ l then some treeRoot else map[s]?

theorem addRootParents_returns (treeRoot : Nat) (htree : fc.IsTree)
    (hsorted : (fc.root :: l).Pairwise (· > ·)) :
    ∃ fc' map', addRootParents treeRoot l fc map = .ok (fc', map') ∧
      Raised treeRoot l fc map fc' map' := by
  induction l generalizing fc map with
  | nil => exact ⟨fc, map, rfl, htree, rfl, by simp, by simp⟩
  | cons a rest ih =>
    obtain ⟨hlt, hsorted'⟩ := pairwise_cons.mp hsorted
    obtain ⟨fc₁, hrun, htree₁, hroot₁, hslots₁, -⟩ :=
      HeaviestSubtreeForkChoice.addRootParent_returns htree (hlt a (mem_cons_self ..))
    obtain ⟨fc', map', hrest, hraised⟩ := @ih fc₁ (map.insert a treeRoot) htree₁
      (by rw [hroot₁]; exact hsorted')
    refine ⟨fc', map', ?_, hraised.isTree, ?_, fun s => ?_, fun s => ?_⟩
    · unfold addRootParents
      rw [hrun]
      exact hrest
    · rw [hraised.root, hroot₁]
      simp [getLast?_cons]
    · rw [hraised.slots, hslots₁, Finset.mem_insert, mem_cons]
      tauto
    · rw [hraised.slotToTree, getElem?_insert_ite]
      by_cases hs : s = a
      · simp [hs]
      · simp [hs]

/-- The ancestors of `orphan` that are added to its tree. -/
def newAncestorsOf (ancestors : List Nat) (tree : Option Nat) : List Nat :=
  (ancestors.drop (if tree.isSome then 1 else 0)).reverse

/-- `repair` with the tree of `orphan` grown to `fc'`, still under its old key. -/
def withRaised (repair : RepairWeight) (orphan : Nat) (fc' : HeaviestSubtreeForkChoice)
    (map : ExtTreeMap Nat Nat) : RepairWeight :=
  { repair with trees := repair.trees.insert orphan fc', slotToTree := map }

theorem extendOrphan_returns (h : Synced repair) (hk : repair.trees[orphan]? = some fc)
    {ancestors : List Nat} {tree : Option Nat} (hfound : Found repair orphan ancestors tree) :
    ∃ fc' map, repair.extendOrphan orphan ancestors tree = .ok (repair.withRaised orphan fc' map) ∧
      Raised orphan (newAncestorsOf ancestors tree) fc repair.slotToTree fc' map := by
  obtain ⟨htree, hroot⟩ := h.tree orphan fc hk
  have hsorted : (fc.root :: newAncestorsOf ancestors tree).Pairwise (· > ·) := by
    obtain ⟨hpair, -, hlt⟩ := pairwise_append.mp hfound.sorted
    refine pairwise_cons.mpr ⟨fun a ha => ?_, ?_⟩
    · rw [hroot]
      exact hlt a (mem_of_mem_drop (mem_reverse.mp ha)) orphan (mem_singleton_self _)
    · exact pairwise_reverse.mpr (hpair.sublist (drop_sublist _ _))
  obtain ⟨fc', map, hrun, hraised⟩ := addRootParents_returns orphan htree hsorted
  refine ⟨fc', map, ?_, hraised⟩
  unfold extendOrphan
  rw [hk]
  unfold newAncestorsOf at hrun
  simp only [expect_some, bind, Except.bind, hrun]
  rfl

/-! ## A new place for the orphan tree -/

/-- The tree at `k₁` has become a part of the tree at `k₂`, together with the new slots `l`. -/
structure Combined (repair : RepairWeight) (k₁ k₂ : Nat) (l : List Nat) (repair' : RepairWeight) :
    Prop where
  synced : Synced repair'
  root : repair'.root = repair.root
  unrootedSlots : repair'.unrootedSlots = repair.unrootedSlots
  mem : repair'.trees[k₂]? ≠ none
  trees : ∀ k : Nat, k ≠ k₁ → repair.trees[k]? ≠ none → repair'.trees[k]? ≠ none
  tracked : ∀ s k : Nat, repair'.slotToTree[s]? = some k →
    (repair.slotToTree[s]? ≠ none ∨ s ∈ l) ∧ (k ≠ k₂ → repair.slotToTree[s]? = some k)

theorem Synced.combined (h : Synced repair) {k₁ k₂ : Nat} (hk₁ : repair.trees[k₁]? = some fc)
    (htree : fc'.IsTree) (hroot : fc'.root = k₂)
    (hslots : ∀ s, s ∈ fc'.slots ↔ (s ∈ fc.slots ∨ s ∈ l) ∨ repair.slotToTree[s]? = some k₂)
    (hnew : ∀ s ∈ l, repair.slotToTree[s]? = none) (htrees : ∀ k : Nat, repair'.trees[k]? =
      if k = k₂ then some fc' else if k = k₁ then none else repair.trees[k]?)
    (hmap : ∀ s : Nat, repair'.slotToTree[s]? =
      if s ∈ fc.slots ∨ s ∈ l then some k₂ else repair.slotToTree[s]?)
    (hrepair : repair'.root = repair.root ∧ repair'.unrootedSlots = repair.unrootedSlots) :
    Combined repair k₁ k₂ l repair' := by
  refine ⟨h.combine k₁ htree hroot htrees (fun s => ?_) fun s hs k hk => ?_,
    hrepair.1, hrepair.2, ?_,
    fun k hk hmem => ?_, fun s k hs => ?_⟩
  · rw [hmap]
    by_cases hs : s ∈ fc.slots ∨ s ∈ l
    · rw [if_pos hs, if_pos ((hslots s).mpr (.inl hs))]
    · rw [if_neg hs]
      by_cases hs₂ : repair.slotToTree[s]? = some k₂
      · rw [if_pos ((hslots s).mpr (.inr hs₂)), hs₂]
      · rw [if_neg fun hin => ((hslots s).mp hin).elim hs hs₂, if_neg]
        rintro (heq | heq)
        · exact hs (.inl ((h.getElem?_of_mem hk₁).mp heq))
        · exact hs₂ heq
  · rcases (hslots s).mp hs with (hs | hs) | hs
    · rw [(h.getElem?_of_mem hk₁).mpr hs] at hk
      exact .inl (Option.some.inj hk).symm
    · rw [hnew s hs] at hk
      cases hk
    · rw [hs] at hk
      exact .inr (Option.some.inj hk).symm
  · rw [htrees]
    simp
  · rw [htrees]
    split
    · simp
    · exact hmem
  · rw [hmap] at hs
    split at hs
    · rename_i hin
      cases hs
      refine ⟨hin.imp_left fun hmem => ?_, fun hne => absurd rfl hne⟩
      rw [(h.getElem?_of_mem hk₁).mpr hmem]
      simp
    · rw [hs]
      simp

/-- The rename that merging and renaming an orphan tree begin with. -/
theorem renameRaised_returns (h : Synced repair) (hk : repair.trees[orphan]? = some fc)
    (hraised : Raised orphan l fc repair.slotToTree fc' map) (k₂ : Nat) :
    ∃ map', { repair.withRaised orphan fc' map with
          trees := (repair.withRaised orphan fc' map).trees.erase orphan }.renameTreeRoot fc' k₂ =
        .ok { repair with
          trees := (repair.withRaised orphan fc' map).trees.erase orphan, slotToTree := map' } ∧
      ∀ s : Nat, map'[s]? = if s ∈ fc.slots ∨ s ∈ l then some k₂ else repair.slotToTree[s]? := by
  obtain ⟨map', hrun, hmap'⟩ := @renameTreeRoot_returns { repair.withRaised orphan fc' map with
      trees := (repair.withRaised orphan fc' map).trees.erase orphan } fc' (fun s hs => by
    show map[s]? ≠ none
    rw [hraised.slotToTree]
    split
    · simp
    · rename_i hnot
      rw [(h.getElem?_of_mem hk).mpr (((hraised.slots s).mp hs).resolve_right hnot)]
      simp) k₂
  refine ⟨map', hrun, fun s => ?_⟩
  rw [hmap']
  show (if s ∈ fc'.slots then some k₂ else map[s]?) = _
  by_cases hs : s ∈ fc'.slots
  · rw [if_pos hs, if_pos ((hraised.slots s).mp hs)]
  · rw [if_neg hs, if_neg (mt (hraised.slots s).mpr hs), hraised.slotToTree,
      if_neg fun hin => hs ((hraised.slots s).mpr (.inr hin))]

theorem withRaised_erase_trees (repair : RepairWeight) (orphan k : Nat)
    (fc' : HeaviestSubtreeForkChoice)
    (map : ExtTreeMap Nat Nat) : ((repair.withRaised orphan fc' map).trees.erase orphan)[k]? =
      if k = orphan then none else repair.trees[k]? := by
  unfold withRaised
  simp only [getElem?_erase_ite, getElem?_insert_ite]
  split
  · rfl
  · rfl

/-- **An orphan tree is merged** into the tree that contains the parent of its root. -/
theorem mergeTrees_returns (o : Overflow) (es : EpochStakes) (h : Synced repair)
    (hk : repair.trees[orphan]? = some fc) (hraised : Raised orphan l fc repair.slotToTree fc' map)
    (hnew : ∀ s ∈ l, repair.slotToTree[s]? = none) (hne : parent ≠ orphan) {leaf : Nat}
    (hleaf : repair.slotToTree[leaf]? = some parent) (hlt : leaf < fc'.root) :
    Returns ((repair.withRaised orphan fc' map).mergeTrees o es orphan parent leaf)
      (Combined repair orphan parent l) o.Aborts := by
  obtain ⟨fc₂, hfc₂, hleaf₂⟩ := (h.slot leaf parent).mp hleaf
  obtain ⟨htree₂, hroot₂⟩ := h.tree parent fc₂ hfc₂
  obtain ⟨map', hrename, hmap'⟩ := renameRaised_returns h hk hraised parent
  have hself : (repair.withRaised orphan fc' map).trees[orphan]? = some fc' := by
    unfold withRaised
    simp only [getElem?_insert_ite, if_true]
  have hparent : ((repair.withRaised orphan fc' map).trees.erase orphan)[parent]? = some fc₂ := by
    rw [withRaised_erase_trees, if_neg hne, hfc₂]
  unfold mergeTrees
  rw [hself]
  simp only [expect_some, bind, Except.bind, hrename, hparent]
  refine (HeaviestSubtreeForkChoice.merge_returns o es htree₂ hraised.isTree hleaf₂ hlt
    fun s hs hin => ?_).bind fun fc₃ ⟨htree₃, hroot₃, hslots₃⟩ => ?_
  · -- the tree that was found has neither the old slots of the orphan tree nor the new ones
    have hs₂ := (h.getElem?_of_mem hfc₂).mpr hin
    rcases (hraised.slots s).mp hs with hs | hs
    · rw [(h.getElem?_of_mem hk).mpr hs] at hs₂
      exact hne (Option.some.inj hs₂).symm
    · rw [hnew s hs] at hs₂
      cases hs₂
  · refine h.combined hk htree₃ (hroot₃.trans hroot₂) (fun s => ?_) hnew
      (fun k => ?_) hmap' ⟨rfl, rfl⟩
    · rw [hslots₃, hraised.slots, h.getElem?_of_mem hfc₂, or_comm]
    · simp only [getElem?_insert_ite, withRaised_erase_trees]

/-- **An orphan tree gets a new key**, the earliest of its new slots. -/
theorem renameOrphan_returns (h : Synced repair) (hk : repair.trees[orphan]? = some fc)
    (hraised : Raised orphan l fc repair.slotToTree fc' map)
    (hnew : ∀ s ∈ l, repair.slotToTree[s]? = none) {earliest : Nat} (hroot : fc'.root = earliest)
    (hearliest : earliest ∈ l) :
    ∃ repair', (repair.withRaised orphan fc' map).renameOrphan orphan (some earliest) =
      .ok (repair', earliest) ∧ Combined repair orphan earliest l repair' := by
  obtain ⟨map', hrename, hmap'⟩ := renameRaised_returns h hk hraised earliest
  have hself : (repair.withRaised orphan fc' map).trees[orphan]? = some fc' := by
    unfold withRaised
    simp only [getElem?_insert_ite, if_true]
  have hnone : ((repair.withRaised orphan fc' map).trees.erase orphan)[earliest]? = none := by
    rw [withRaised_erase_trees]
    split
    · rfl
    · exact h.trees_none (hnew earliest hearliest)
  refine ⟨{ repair with
    trees := ((repair.withRaised orphan fc' map).trees.erase orphan).insert earliest fc',
    slotToTree := map' }, ?_, ?_⟩
  · unfold renameOrphan
    simp only [hself, expect_some, bind, Except.bind, hrename, hnone]
    rfl
  · refine h.combined hk hraised.isTree hroot (fun s => ?_) hnew (fun k => ?_) hmap' ⟨rfl, rfl⟩
    · rw [hraised.slots]
      exact (or_iff_left (h.not_key (hnew earliest hearliest))).symm
    · simp only [getElem?_insert_ite, withRaised_erase_trees]

/-! ## The loop -/

/-- The bookkeeping invariant, but for the tree at `orphan` if its root is unrooted. -/
structure BookkeepingExcept (repair : RepairWeight)
    (orphan : Nat) : Prop extends Synced repair where
  root_mem : repair.trees[repair.root]? ≠ none
  root_rooted : repair.isUnrootedSlot repair.root = false
  orphan_mem : repair.trees[orphan]? ≠ none
  rooted : ∀ s k : Nat, repair.slotToTree[s]? = some k →
    k ≠ orphan ∨ repair.isUnrootedSlot orphan = false → repair.isUnrootedSlot s = false

theorem Bookkeeping.root_tracked (h : Bookkeeping repair) :
    repair.slotToTree[repair.root]? = some repair.root := by
  obtain ⟨fc, hfc⟩ := Option.ne_none_iff_exists'.mp h.root_mem
  exact h.key hfc

theorem Bookkeeping.except (h : Bookkeeping repair) (hk : repair.trees[orphan]? ≠ none) :
    BookkeepingExcept repair orphan :=
  ⟨h.toSynced, h.root_mem, h.not_unrooted h.root_tracked, hk, fun _ _ hs _ => h.not_unrooted hs⟩

theorem BookkeepingExcept.bookkeeping (h : BookkeepingExcept repair orphan)
    (hrooted : repair.isUnrootedSlot orphan = false) : Bookkeeping repair := by
  have hslot := fun s k hs => isUnrootedSlot_eq_false.mp (h.rooted s k hs (.inr hrooted))
  exact ⟨h.toSynced, h.root_mem, fun s k hs => (hslot s k hs).1, fun s k hs => (hslot s k hs).2⟩

theorem Combined.isUnrootedSlot_eq {k₁ k₂ : Nat} (hcombined : Combined repair k₁ k₂ l repair')
    (s : Nat) : repair'.isUnrootedSlot s = repair.isUnrootedSlot s := by
  unfold isUnrootedSlot
  rw [hcombined.root, hcombined.unrootedSlots]

/-- The new slots may be unrooted only if the key of the tree they are in is. -/
theorem Combined.except (h : Bookkeeping repair) {k₂ : Nat} (hne : orphan ≠ repair.root)
    (hcombined : Combined repair orphan k₂ l repair')
    (hl : ∀ s ∈ l, repair.isUnrootedSlot k₂ = false → repair.isUnrootedSlot s = false) :
    BookkeepingExcept repair' k₂ := by
  refine ⟨hcombined.synced, ?_, ?_, hcombined.mem, fun s k hs hk => ?_⟩
  · rw [hcombined.root]
    exact hcombined.trees _ hne.symm h.root_mem
  · rw [hcombined.isUnrootedSlot_eq, hcombined.root]
    exact h.not_unrooted h.root_tracked
  · rw [hcombined.isUnrootedSlot_eq] at hk ⊢
    obtain ⟨hold, hother⟩ := hcombined.tracked s k hs
    by_cases hk₂ : k = k₂
    · rcases hold with hold | hs
      · obtain ⟨k', hk'⟩ := Option.ne_none_iff_exists'.mp hold
        exact h.not_unrooted hk'
      · exact hl s hs (hk.resolve_left fun h => h hk₂)
    · exact h.not_unrooted (hother hk₂)

section

variable (o : Overflow) (es : EpochStakes) (blockstore : Blockstore) (h : Bookkeeping repair)
  (hk : repair.trees[orphan]? ≠ none)
include h hk

/-- **The loop of `update_orphan_ancestors` ends.** -/
theorem orphanLoop_returns {fuel : Nat} (hfuel : orphan < fuel) :
    Returns (orphanLoop o es blockstore fuel repair orphan)
      (fun updated => BookkeepingExcept updated.1 updated.2) o.Aborts := by
  induction fuel generalizing repair orphan with
  | zero => omega
  | succ fuel ih =>
    unfold orphanLoop
    split
    · exact h.except hk
    · rename_i hne
      obtain ⟨fc, hfc⟩ := Option.ne_none_iff_exists'.mp hk
      obtain ⟨⟨ancestors, tree⟩, hrun, hfound⟩ :=
        findAncestorSubtreeOfSlot_returns repair blockstore orphan
      obtain ⟨fc', map, hextend, hraised⟩ := extendOrphan_returns h.toSynced hfc hfound
      simp only [hrun, hextend, bind, Except.bind]
      obtain ⟨-, horphan⟩ := h.tree orphan fc hfc
      obtain ⟨-, -, hlt⟩ := pairwise_append.mp hfound.sorted
      cases tree with
      | some parent =>
        obtain ⟨a, rest, hancestors, ha⟩ := hfound.head_some parent rfl
        subst hancestors
        have hao : a < orphan := hlt a (mem_cons_self ..) orphan (mem_singleton_self _)
        have hpa : parent ≤ a := by
          obtain ⟨fc₂, hfc₂, hin⟩ := (h.slot a parent).mp ha
          obtain ⟨htree₂, hroot₂⟩ := h.tree parent fc₂ hfc₂
          exact hroot₂ ▸ htree₂.root_le hin
        have hl : ∀ s ∈ newAncestorsOf (a :: rest) (some parent),
            repair.slotToTree[s]? = none ∧ repair.isUnrootedSlot s = false :=
          fun s hs => hfound.tail s (mem_reverse.mp hs)
        have hleaf : a < fc'.root := by
          rw [hraised.root, horphan]
          cases hlast : (newAncestorsOf (a :: rest) (some parent)).getLast? with
          | none => exact hao
          | some b =>
            have hb : b ∈ rest := mem_reverse.mp (mem_of_getLast? hlast)
            exact (pairwise_cons.mp (pairwise_append.mp hfound.sorted).1).1 b hb
        refine (mergeTrees_returns o es h.toSynced hfc hraised
          (fun s hs => (hl s hs).1) (by omega) ha
          hleaf).bind fun repair' hcombined => ?_
        have hparent : repair.isUnrootedSlot parent = false := by
          obtain ⟨fc₂, hfc₂, -⟩ := (h.slot a parent).mp ha
          exact h.not_unrooted (h.key hfc₂)
        have hexcept := hcombined.except h hne fun s hs _ => (hl s hs).2
        exact ih (hexcept.bookkeeping ((hcombined.isUnrootedSlot_eq parent).trans hparent))
          hcombined.mem (by omega)
      | none =>
        cases ancestors with
        | nil =>
          have hsame : ∀ s, s ∈ fc'.slots ↔ repair.slotToTree[s]? = some orphan := fun s => by
            rw [hraised.slots, h.getElem?_of_mem hfc]
            exact or_iff_left not_mem_nil
          have hbook : Bookkeeping (repair.withRaised orphan fc' map) := by
            refine h.extend hraised.isTree (hraised.root.trans horphan) (fun s => ?_)
              (fun s => (hsame s).mpr) fun s hs => .inl ((hsame s).mp hs)
            have hmap := hraised.slotToTree s
            rw [if_neg (show s ∉ newAncestorsOf [] none from not_mem_nil)] at hmap
            rw [hmap]
            split
            · rename_i hs
              exact (hsame s).mp hs
            · rfl
          refine hbook.except ?_
          unfold withRaised
          simp
        | cons a rest =>
          have hl : ∀ s ∈ newAncestorsOf (a :: rest) none, s = a ∨ s ∈ rest := fun s hs =>
            mem_cons.mp (mem_reverse.mp hs)
          have hnew : ∀ s ∈ newAncestorsOf (a :: rest) none, repair.slotToTree[s]? = none := by
            intro s hs
            rcases hl s hs with rfl | hs
            · exact (hfound.head_none rfl s rest rfl).elim h.untracked id
            · exact (hfound.tail s hs).1
          obtain ⟨repair', hrename, hcombined⟩ := renameOrphan_returns h.toSynced hfc hraised hnew
            (show fc'.root = a by rw [hraised.root]; simp [newAncestorsOf])
            (by simp [newAncestorsOf])
          simp only [head?_cons, hrename]
          refine hcombined.except h hne fun s hs ha => ?_
          rcases hl s hs with rfl | hs
          · exact ha
          · exact (hfound.tail s hs).2

/-! ## Calls -/

omit h hk in
/-- A tree with an unrooted root is purged. -/
theorem purgeOrphan_returns (h : BookkeepingExcept repair orphan)
    (hunrooted : repair.isUnrootedSlot orphan = true) :
    ∃ repair', repair.purgeTree repair.root orphan = .ok repair' ∧ Bookkeeping repair' := by
  obtain ⟨fc, hfc⟩ := Option.ne_none_iff_exists'.mp h.orphan_mem
  obtain ⟨repair', hrun, hpurged⟩ := purgeTree_returns h.toSynced hfc repair.root
  have hne : repair.root ≠ orphan := by
    intro heq
    have hroot := h.root_rooted
    rw [heq, hunrooted] at hroot
    cases hroot
  have hslot : ∀ s k : Nat, repair'.slotToTree[s]? = some k →
      repair.root ≤ s ∧ s ∉ repair'.unrootedSlots := by
    intro s k hs
    rw [hpurged.slotToTree] at hs
    obtain ⟨hother, hs⟩ := Option.ite_none_left_eq_some.mp hs
    have hk : k ≠ orphan := fun heq => hother (heq ▸ hs)
    obtain ⟨hle, hrooted⟩ := isUnrootedSlot_eq_false.mp (h.rooted s k hs (.inl hk))
    refine ⟨hle, fun hin => ?_⟩
    rcases (hpurged.unrootedSlots s).mp hin with hin | hin
    · exact hrooted hin
    · exact hother hin.1
  refine ⟨repair', hrun, hpurged.synced h.toSynced, ?_, fun s k hs => ?_,
    fun s k hs => (hslot s k hs).2⟩
  · rw [hpurged.root, hpurged.trees, if_neg hne]
    exact h.root_mem
  · rw [hpurged.root]
    exact (hslot s k hs).1

theorem updateOrphanAncestors_returns :
    Returns (repair.updateOrphanAncestors o blockstore orphan es)
      (fun updated => Bookkeeping updated.1) o.Aborts := by
  unfold updateOrphanAncestors
  rw [assert_pos (Option.isSome_iff_ne_none.mpr hk)]
  refine (orphanLoop_returns o es blockstore h hk (Nat.lt_succ_self orphan)).bind
    fun updated hupdated => ?_
  split
  · rename_i hunrooted
    obtain ⟨repair', hrun, h'⟩ := purgeOrphan_returns hupdated hunrooted
    rw [hrun]
    exact h'
  · rename_i hrooted
    exact hupdated.bookkeeping (Bool.eq_false_iff.mpr hrooted)

end

theorem visitOrphan_returns (o : Overflow) (es : EpochStakes) (blockstore : Blockstore)
    (maxNewOrphans : Nat) {acc : RepairWeight × List Nat} (h : Bookkeeping acc.1) (treeRoot : Nat) :
    Returns (visitOrphan o es blockstore maxNewOrphans acc treeRoot)
      (fun acc' => Bookkeeping acc'.1) o.Aborts := by
  unfold visitOrphan
  split
  · exact h
  · rename_i hvisit
    push Not at hvisit
    have hk : acc.1.trees[treeRoot]? ≠ none := fun hnone => hvisit.2.2 (by rw [hnone]; rfl)
    refine (updateOrphanAncestors_returns o es blockstore h hk).bind fun updated hupdated => ?_
    split
    · split
      · exact hupdated
      · exact hupdated
    · exact hupdated

theorem treeWeights_returns (h : Synced repair) : ∃ weights, repair.treeWeights = .ok weights := by
  refine exists_mapM_eq_ok fun entry hentry => ?_
  obtain ⟨k, fc⟩ := entry
  obtain ⟨htree, hroot⟩ := h.tree k fc (getElem?_of_mem_toList hentry)
  refine ⟨(k, (fc.entry k).stakeVotedSubtree), ?_⟩
  unfold HeaviestSubtreeForkChoice.stakeVotedSubtree
  rw [HeaviestSubtreeForkChoice.getElem?_of_mem (hroot ▸ htree.root_mem)]
  rfl

/-- **`get_best_orphans` keeps the bookkeeping invariant.** -/
theorem getBestOrphans_returns (o : Overflow) (es : EpochStakes) (h : Bookkeeping repair)
    (blockstore : Blockstore) (maxNewOrphans : Nat) :
    Returns (repair.getBestOrphans o blockstore es maxNewOrphans)
      (fun result => Bookkeeping result.1) o.Aborts := by
  obtain ⟨weights, hweights⟩ := treeWeights_returns h.toSynced
  unfold getBestOrphans
  rw [hweights]
  refine (Returns.foldlM _ [] h
    fun _ treeRoot _ acc _ hacc =>
      visitOrphan_returns o es blockstore maxNewOrphans hacc treeRoot).bind
    fun visited hvisited => ?_
  exact hvisited

end RepairWeight

end Panoptes.Repair
