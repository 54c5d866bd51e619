import Panoptes.Repair.Synced

/-!
# Moving the root of repair weight

`set_root` purges the trees below the new root that do not contain it, cuts the tree that contains
it down to the subtree at it, and forgets unrooted slots below it.

* `purge_returns` — the loop over the trees to purge.
* `moveRoot_returns` — the tree of the new root.
* `setRoot_returns` — `set_root` to a root that is not unrooted keeps the bookkeeping invariant.
-/

set_option autoImplicit false

namespace Panoptes.Repair

open Lib Sdk ForkChoice
open Std (ExtTreeMap ExtTreeSet)

namespace RepairWeight

variable {repair repair' : RepairWeight} {fc : HeaviestSubtreeForkChoice} {s k newRoot : Nat}

/-! ## Purging trees -/

/-- The trees with keys in `done` are purged. -/
structure PurgedAll (repair : RepairWeight) (done : List Nat) (repair' : RepairWeight) : Prop where
  synced : Synced repair'
  root : repair'.root = repair.root
  trees : ∀ k : Nat, repair'.trees[k]? = if k ∈ done then none else repair.trees[k]?
  unrootedSlots : ∀ s ∈ repair'.unrootedSlots,
    s ∈ repair.unrootedSlots ∨ ∃ k ∈ done, repair.slotToTree[s]? = some k

/-- Slots of other trees stay tracked, and no slot gets tracked. -/
theorem PurgedAll.slotToTree (h : Synced repair) {done : List Nat}
    (hpurged : PurgedAll repair done repair')
    (s k : Nat) : repair'.slotToTree[s]? = some k ↔ repair.slotToTree[s]? = some k ∧ k ∉ done := by
  rw [hpurged.synced.slot, h.slot]
  simp only [hpurged.trees]
  constructor
  · rintro ⟨fc, hfc, hs⟩
    split at hfc
    · cases hfc
    · rename_i hk
      exact ⟨⟨fc, hfc, hs⟩, hk⟩
  · rintro ⟨⟨fc, hfc, hs⟩, hk⟩
    exact ⟨fc, by rw [if_neg hk, hfc], hs⟩

theorem purge_returns (h : Synced repair) {l : List Nat} (hnodup : l.Nodup)
    (hl : ∀ k ∈ l, repair.trees[k]? ≠ none) (min : Nat) :
    ∃ repair', l.foldlM (purgeTree min) repair = .ok repair' ∧ PurgedAll repair l repair' := by
  have hloop := Returns.foldlM (f := purgeTree min) (P := PurgedAll repair)
    (E := fun _ => False) l []
    ⟨h, rfl, fun k => by simp, fun s hs => .inl hs⟩ fun done k rest repair₁ hsplit h₁ => by
      rw [List.nil_append] at hsplit
      have hknot : k ∉ done := by
        rw [hsplit] at hnodup
        exact fun hin => (List.nodup_append.mp hnodup).2.2 k hin k (List.mem_cons_self ..) rfl
      obtain ⟨fc, hfc⟩ := Option.ne_none_iff_exists'.mp (hl k (hsplit ▸ by simp))
      have hfc₁ : repair₁.trees[k]? = some fc := by
        rw [h₁.trees, if_neg hknot, hfc]
      obtain ⟨repair₂, hrun, hpurged⟩ := purgeTree_returns h₁.synced hfc₁ min
      rw [hrun]
      refine ⟨hpurged.synced h₁.synced, hpurged.root.trans h₁.root, fun k' => ?_, fun s hs => ?_⟩
      · rw [hpurged.trees, h₁.trees]
        by_cases hk' : k' = k
        · simp [hk']
        · simp [hk']
      · rcases (hpurged.unrootedSlots s).mp hs with hs | ⟨hs, -⟩
        · rcases h₁.unrootedSlots s hs with hs | ⟨k', hk', hs⟩
          · exact .inl hs
          · exact .inr ⟨k', List.mem_append_left _ hk', hs⟩
        · exact .inr ⟨k, by simp, ((h₁.slotToTree h s k).mp hs).1⟩
  exact hloop.exists_ok fun _ he => he

/-! ## The tree of the new root -/

/-- The state with the tree at `k` cut down to a tree `fc` at the new root. -/
structure Moved (repair : RepairWeight) (k newRoot : Nat) (fc : HeaviestSubtreeForkChoice)
    (repair' : RepairWeight) : Prop where
  synced : Synced repair'
  trees : ∀ k' : Nat, repair'.trees[k']? =
    if k' = newRoot then some fc else if k' = k then none else repair.trees[k']?
  unrootedSlots : ∀ s ∈ repair'.unrootedSlots, s ∈ repair.unrootedSlots ∨
    (repair.slotToTree[s]? = some k ∧ s ∉ fc.slots)
  slots : ∀ s ∈ fc.slots, newRoot ≤ s ∧ repair.slotToTree[s]? = some k

theorem moveRoot_returns (h : Synced repair) (hk : repair.trees[k]? = some fc)
    (hnew : newRoot ∈ fc.slots) :
    ∃ repair' fc', repair.moveRoot newRoot (some k) = .ok repair' ∧
      Moved repair k newRoot fc' repair' := by
  obtain ⟨htree, rfl⟩ := h.tree k fc hk
  have hmem := fun s => h.getElem?_of_mem (s := s) hk
  obtain ⟨out, hdiff, hout⟩ := HeaviestSubtreeForkChoice.subtreeDiff_returns htree hnew
  obtain ⟨fc', hset, htree', hroot', -, hslots', -, -⟩ :=
    HeaviestSubtreeForkChoice.setRoot_returns htree hnew
  have hsub : ∀ s, s ∈ fc'.slots ↔ s ∈ fc.slots ∧ s ∉ out := by
    intro s
    rw [hslots', hout]
    constructor
    · intro hbelow
      exact ⟨htree.below_mem hnew hbelow, fun hnot => hnot.2 hbelow⟩
    · rintro ⟨hs, hnot⟩
      by_contra hbelow
      exact hnot ⟨hs, hbelow⟩
  -- the slots outside the subtree are removed, those inside are renamed
  obtain ⟨repair₁, hremove, htrees₁, hroot₁, hmap₁, hunrooted₁⟩ :=
    @removeTreeSlots_returns { repair with trees := repair.trees.erase fc.root } newRoot out.toList
      (nodup_toList_set out) fun s hs => by
        rw [(hmem s).mpr ((hout s).mp (ExtTreeSet.mem_toList.mp hs)).1]
        simp
  obtain ⟨map, hrename, hmap⟩ := @renameTreeRoot_returns repair₁ fc' (fun s hs => by
    obtain ⟨hs, hnot⟩ := (hsub s).mp hs
    rw [hmap₁, if_neg (mt ExtTreeSet.mem_toList.mp hnot)]
    rw [(hmem s).mpr hs]
    simp) newRoot
  have htrees : ∀ k' : Nat, (repair₁.trees.insert newRoot fc')[k']? = if k' = newRoot then some fc'
      else if k' = fc.root then none else repair.trees[k']? := by
    intro k'
    rw [getElem?_insert_ite, htrees₁]
    simp only [getElem?_erase_ite]
  refine ⟨{ repair₁ with slotToTree := map, trees := repair₁.trees.insert newRoot fc' }, fc', ?_,
    ?_,
    htrees, fun s hs => ?_, fun s hs => ?_⟩
  · simp only [moveRoot, hk, expect_some, bind, Except.bind, hdiff, hremove, hset, hrename]
  · refine h.combine fc.root htree' hroot' htrees (fun s => ?_) fun s hs k' hk' => ?_
    · simp only [hmap, hmap₁]
      by_cases hs : s ∈ fc'.slots
      · rw [if_pos hs, if_pos hs]
      · rw [if_neg hs, if_neg hs]
        by_cases hfc : s ∈ fc.slots
        · have hs' : s ∈ out := by
            by_contra hnot
            exact hs ((hsub s).mpr ⟨hfc, hnot⟩)
          rw [if_pos (ExtTreeSet.mem_toList.mpr hs'), if_pos (.inl ((hmem s).mpr hfc))]
        · have hs' : s ∉ out := fun hin => hfc ((hout s).mp hin).1
          rw [if_neg (mt ExtTreeSet.mem_toList.mp hs'), if_neg]
          rintro (heq | heq)
          · exact hfc ((hmem s).mp heq)
          · -- a tree at the new root is the tree that contains it
            obtain ⟨fc₂, hfc₂, -⟩ := (h.slot s newRoot).mp heq
            have hkey := h.key hfc₂
            rw [(hmem newRoot).mpr hnew] at hkey
            exact hfc ((hmem s).mp (heq.trans hkey.symm))
    · rw [(hmem s).mpr ((hsub s).mp hs).1] at hk'
      exact .inl (Option.some.inj hk').symm
  · rcases (hunrooted₁ s).mp hs with hs | ⟨hs, -⟩
    · exact .inl hs
    · have hs' := ExtTreeSet.mem_toList.mp hs
      exact .inr ⟨(hmem s).mpr ((hout s).mp hs').1, fun hin => ((hsub s).mp hin).2 hs'⟩
  · exact ⟨((hslots' s).mp hs).le, (hmem s).mpr ((hsub s).mp hs).1⟩

/-! ## A call -/

/-- The trees that `set_root` keeps start at the new root or later, or contain it. -/
theorem le_of_not_purged {tree : Option Nat} {keys : List Nat} (hk : k ∈ keys)
    (hnot : k ∉ keys.filter fun subtreeRoot => subtreeRoot < newRoot ∧ some subtreeRoot ≠ tree)
    (hne : some k ≠ tree) : newRoot ≤ k := by
  by_contra hlt
  apply hnot
  rw [List.mem_filter, decide_eq_true_eq]
  exact ⟨hk, by omega, hne⟩

/-- **`set_root` keeps the bookkeeping invariant** if the new root is not less than the old one and
not unrooted. -/
theorem setRoot_returns (h : Bookkeeping repair) (hle : repair.root ≤ newRoot)
    (hrooted : newRoot ∉ repair.unrootedSlots) :
    ∃ repair', repair.setRoot newRoot = .ok repair' ∧ Bookkeeping repair' := by
  unfold setRoot
  rw [assert_pos hle]
  simp only [bind, Except.bind]
  by_cases heq : newRoot = repair.root
  · rw [if_pos heq]
    exact ⟨repair, rfl, h⟩
  rw [if_neg heq]
  obtain ⟨repair₁, hpurge, h₁⟩ :=
    purge_returns h.toSynced (l := repair.trees.keys.filter fun subtreeRoot =>
      subtreeRoot < newRoot ∧ some subtreeRoot ≠ repair.slotToTree[newRoot]?)
    (ExtTreeMap.nodup_keys.filter _) (fun k hk => by
      have hin := (List.mem_filter.mp hk).1
      exact mem_keys_toFinset.mp (List.mem_toFinset.mpr hin)) newRoot
  have hkept : ∀ k fc, repair₁.trees[k]? = some fc → some k ≠ repair.slotToTree[newRoot]? →
      newRoot ≤ k := by
    intro k fc hk hne
    rw [h₁.trees] at hk
    split at hk
    · cases hk
    · rename_i hnot
      refine le_of_not_purged (List.mem_toFinset.mp (mem_keys_toFinset.mpr ?_)) hnot hne
      rw [hk]
      simp
  -- what is still tracked was tracked before, and did not become unrooted
  have hrooted₁ : ∀ s k : Nat, repair₁.slotToTree[s]? = some k → s ∉ repair₁.unrootedSlots := by
    intro s k hs hmem
    obtain ⟨hs', hnot⟩ := (h₁.slotToTree h.toSynced s k).mp hs
    rcases h₁.unrootedSlots s hmem with hmem | ⟨k', hk', hsk'⟩
    · exact h.rooted s k hs' hmem
    · rw [hs'] at hsk'
      cases hsk'
      exact hnot hk'
  simp only [hpurge]
  cases htree : repair.slotToTree[newRoot]? with
  | some t =>
    have ht₁ : repair₁.slotToTree[newRoot]? = some t := by
      refine (h₁.slotToTree h.toSynced newRoot t).mpr ⟨htree, fun hin => ?_⟩
      have := (List.mem_filter.mp hin).2
      rw [decide_eq_true_eq, htree] at this
      exact this.2 rfl
    obtain ⟨fc, hfc, hmem⟩ := (h₁.synced.slot newRoot t).mp ht₁
    obtain ⟨repair₂, fc₂, hmove, h₂⟩ := moveRoot_returns h₁.synced hfc hmem
    simp only [hmove]
    have hslot : ∀ s k : Nat, repair₂.slotToTree[s]? = some k → newRoot ≤ s ∧
        s ∉ repair₂.unrootedSlots := by
      intro s k hs
      obtain ⟨fc', hfc', hin⟩ := (h₂.synced.slot s k).mp hs
      rw [h₂.trees] at hfc'
      split at hfc'
      · cases hfc'
        obtain ⟨hle', ht⟩ := h₂.slots s hin
        refine ⟨hle', fun hun => ?_⟩
        rcases h₂.unrootedSlots s hun with hun | ⟨-, hnot⟩
        · exact hrooted₁ s t ht hun
        · exact hnot hin
      · obtain ⟨hkt, hfc'⟩ := Option.ite_none_left_eq_some.mp hfc'
        have hs₁ := (h₁.synced.slot s k).mpr ⟨fc', hfc', hin⟩
        obtain ⟨htree', hroot'⟩ := h₁.synced.tree k fc' hfc'
        refine ⟨(hkept k fc' hfc' ?_).trans (hroot' ▸ htree'.root_le hin), fun hun => ?_⟩
        · rw [htree]
          exact fun h => hkt (Option.some.inj h)
        · rcases h₂.unrootedSlots s hun with hun | ⟨ht, -⟩
          · exact hrooted₁ s k hs₁ hun
          · rw [hs₁] at ht
            exact hkt (Option.some.inj ht)
    refine ⟨_, rfl, ⟨h₂.synced.tree, h₂.synced.slot⟩, ?_, fun s k hs => (hslot s k hs).1,
      fun s k hs hun => (hslot s k hs).2 (Finset.mem_filter.mp hun).1⟩
    rw [h₂.trees]
    simp
  | none =>
    have hnone : repair₁.slotToTree[newRoot]? = none := by
      cases hget : repair₁.slotToTree[newRoot]? with
      | none => rfl
      | some k =>
        rw [((h₁.slotToTree h.toSynced newRoot k).mp hget).1] at htree
        cases htree
    simp only [moveRoot, insertNewTree_eq h₁.synced hnone]
    have hslot : ∀ s k : Nat, (repair₁.withNewTree newRoot).slotToTree[s]? = some k →
        newRoot ≤ s ∧ s ∉ repair₁.unrootedSlots := by
      intro s k hs
      rw [withNewTree_slotToTree] at hs
      split at hs
      · rename_i hs'
        rw [hs']
        refine ⟨le_refl _, fun hun => ?_⟩
        rcases h₁.unrootedSlots newRoot hun with hun | ⟨k', -, hk'⟩
        · exact hrooted hun
        · rw [htree] at hk'
          cases hk'
      · obtain ⟨fc, hfc, hin⟩ := (h₁.synced.slot s k).mp hs
        obtain ⟨htree', hroot'⟩ := h₁.synced.tree k fc hfc
        refine ⟨(hkept k fc hfc ?_).trans (hroot' ▸ htree'.root_le hin), hrooted₁ s k hs⟩
        rw [htree]
        simp
    have hsynced := h₁.synced.withNewTree hnone
    refine ⟨_, rfl, ⟨hsynced.tree, hsynced.slot⟩, ?_, fun s k hs => (hslot s k hs).1,
      fun s k hs hun => (hslot s k hs).2 (Finset.mem_filter.mp hun).1⟩
    rw [withNewTree_trees_self]
    simp

end RepairWeight

end Panoptes.Repair
