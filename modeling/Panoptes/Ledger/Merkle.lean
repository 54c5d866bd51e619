import Panoptes.Sdk.Transaction

/-!
# Merkle trees

`merkle-tree/src/merkle_tree.rs` and `hash_transactions` of `ledger/src/entry.rs`: the levels of a
tree stand one after the other in one vector, and an odd last node is paired with itself.

Principal results: `findPath_verify_iff`, a proof accepts exactly its leaf if there are two leaves,
and `hashTransactions_inj_iff`, when the root determines the signatures.  The proof of a single leaf
is empty and accepts everything, and a last node that stands twice is not seen.
-/

set_option autoImplicit false

namespace Panoptes.Ledger

open Lib Sdk List

/-- `hash_leaf!` and `hash_intermediate!`. -/
structure MerkleHashes (α η : Type) where
  leaf : α → η
  intermediate : η → η → η

structure MerkleHashes.Injective {α η : Type} (H : MerkleHashes α η) : Prop where
  leaf : ∀ {a b}, H.leaf a = H.leaf b → a = b
  intermediate : ∀ {l r l' r'}, H.intermediate l r = H.intermediate l' r' → l = l' ∧ r = r'

structure MerkleTree (η : Type) where
  leafCount : Nat
  nodes : List η

structure ProofEntry (η : Type) where
  target : η
  leftSibling : Option η
  rightSibling : Option η

def nextLevelLen (levelLen : Nat) : Nat := if levelLen = 1 then 0 else (levelLen + 1) / 2

theorem nextLevelLen_lt {n : Nat} (h : n ≠ 0) : nextLevelLen n < n := by
  unfold nextLevelLen
  split <;> omega

variable {α η : Type} (H : MerkleHashes α η) {level level' pre post : List η} {i : Nat} {a : η}

namespace MerkleTree

/-- The node `i` of a level, from the level before it. -/
def pushNode (prevLevelStart prevLevelLen : Nat) (nodes : List η) (i : Nat) :
    Except Panic (List η) := do
  let lsib ← index nodes (prevLevelStart + 2 * i)
  let rsib ← index nodes (if 2 * i + 1 < prevLevelLen then prevLevelStart + 2 * i + 1
    else prevLevelStart + 2 * i)
  .ok (nodes ++ [H.intermediate lsib rsib])

def pushLevels (nodes : List η) (prevLevelStart prevLevelLen levelStart levelLen : Nat) :
    Except Panic (List η) :=
  if _h : levelLen = 0 then .ok nodes
  else do
    let nodes ← (range levelLen).foldlM (pushNode H prevLevelStart prevLevelLen) nodes
    pushLevels nodes levelStart levelLen (levelStart + levelLen) (nextLevelLen levelLen)
termination_by levelLen
decreasing_by exact nextLevelLen_lt _h

def new (items : List α) : Except Panic (MerkleTree η) := do
  let nodes ← pushLevels H (items.map H.leaf) 0 items.length items.length
    (nextLevelLen items.length)
  .ok ⟨items.length, nodes⟩

def getRoot (tree : MerkleTree η) : Option η := tree.nodes.getLast?

/-- `ProofEntry::new` asserts that there is one sibling. -/
def pushEntry (target : η) (path : List (ProofEntry η)) : Option η → Option η →
    Except Panic (List (ProofEntry η))
  | none, none => .ok path
  | some _, some _ => .error .assertion
  | lsib, rsib => .ok (path ++ [⟨target, lsib, rsib⟩])

def findPathLoop (nodes : List η) (levelStart levelLen nodeIndex : Nat) (lsib rsib : Option η)
    (path : List (ProofEntry η)) : Except Panic (List (ProofEntry η)) :=
  if h : levelLen = 0 then .ok path
  else if nodes.length < levelStart + levelLen then .error .indexOutOfBounds
  else do
    let level := (nodes.drop levelStart).take levelLen
    let target ← index level nodeIndex
    let path ← pushEntry target path lsib rsib
    if nodeIndex % 2 = 0 then do
      let rsib ← index level (if nodeIndex + 1 < level.length then nodeIndex + 1 else nodeIndex)
      findPathLoop nodes (levelStart + levelLen) (nextLevelLen levelLen) (nodeIndex / 2) none
        (some rsib) path
    else do
      let lsib ← index level (nodeIndex - 1)
      findPathLoop nodes (levelStart + levelLen) (nextLevelLen levelLen) (nodeIndex / 2)
        (some lsib) none path
termination_by levelLen
decreasing_by all_goals exact nextLevelLen_lt h

def findPath (tree : MerkleTree η) (i : Nat) : Except Panic (Option (List (ProofEntry η))) :=
  if tree.leafCount ≤ i then .ok none
  else (findPathLoop tree.nodes 0 tree.leafCount i none none []).map some

def verifyEntry [DecidableEq η] (candidate : η) (entry : ProofEntry η) : Option η :=
  let hash := H.intermediate (entry.leftSibling.getD candidate) (entry.rightSibling.getD candidate)
  if hash = entry.target then some hash else none

def verify [DecidableEq η] (path : List (ProofEntry η)) (candidate : η) : Bool :=
  (path.foldlM (verifyEntry H) candidate).isSome

/-! ## The levels -/

/-- The level above a level. -/
def up : List η → List η
  | l :: r :: rest => H.intermediate l r :: up rest
  | [l] => [H.intermediate l l]
  | [] => []

theorem up_length (level : List η) : (up H level).length = (level.length + 1) / 2 := by
  fun_induction up H level with
  | case1 l r rest ih =>
    simp only [length_cons]
    omega
  | case2 l => simp
  | case3 => simp

theorem getElem?_up (h : level[2 * i]? = some a) :
    (up H level)[i]? = some (H.intermediate a (level[2 * i + 1]?.getD a)) := by
  fun_induction up H level generalizing i with
  | case1 l r rest ih =>
    cases i with
    | zero =>
      cases h
      rfl
    | succ i => exact ih h
  | case2 l =>
    cases i with
    | zero =>
      cases h
      rfl
    | succ i => cases h
  | case3 => cases h

/-- A level and all above it. -/
def tower (level : List η) : List η :=
  if level.length ≤ 1 then level else level ++ tower (up H level)
termination_by level.length
decreasing_by
  rw [up_length]
  omega

theorem tower_of_le (h : level.length ≤ 1) : tower H level = level := by
  rw [tower, if_pos h]

theorem tower_of_lt (h : 1 < level.length) : tower H level = level ++ tower H (up H level) := by
  rw [tower, if_neg (by omega)]

theorem nextLevelLen_eq (h : 1 < level.length) :
    nextLevelLen level.length = (up H level).length := by
  rw [up_length, nextLevelLen, if_neg (by omega)]

theorem index_append (h : level[i]? = some a) :
    index (pre ++ level ++ post) (pre.length + i) = .ok a := by
  obtain ⟨hi, rfl⟩ := List.getElem?_eq_some_iff.mp h
  simp [index, getElem?_append, hi]

theorem pushNode_eq (h : level[2 * i]? = some a) :
    pushNode H pre.length level.length (pre ++ level ++ post) i
      = .ok (pre ++ level ++ post ++ [H.intermediate a (level[2 * i + 1]?.getD a)]) := by
  unfold pushNode
  rw [index_append h]
  cases hr : level[2 * i + 1]? with
  | none =>
    rw [if_neg (by simpa using hr), index_append h]
    rfl
  | some b =>
    rw [if_pos (List.getElem?_eq_some_iff.mp hr).1, Nat.add_assoc, index_append hr]
    rfl

theorem foldlM_pushNode {k : Nat} (hk : k ≤ (up H level).length) :
    (range k).foldlM (pushNode H pre.length level.length) (pre ++ level)
      = .ok (pre ++ level ++ (up H level).take k) := by
  induction k with
  | zero =>
    rw [take_zero, append_nil]
    rfl
  | succ k ih =>
    have hk' := hk
    rw [up_length] at hk'
    obtain ⟨a, ha⟩ : ∃ a, level[2 * k]? = some a :=
      ⟨_, getElem?_eq_getElem (show 2 * k < level.length by omega)⟩
    rw [range_succ, foldlM_append, ih (by omega), ok_bind, foldlM_cons,
      pushNode_eq H ha, take_add_one,
      getElem?_up H ha]
    simp only [append_assoc]
    rfl

theorem pushLevels_eq (level pre : List η) :
    pushLevels H (pre ++ level) pre.length level.length (pre.length + level.length)
      (nextLevelLen level.length) = .ok (pre ++ tower H level) := by
  rw [pushLevels]
  by_cases h : level.length ≤ 1
  · rw [dif_pos, tower_of_le H h]
    unfold nextLevelLen
    split <;> omega
  · have hlen := nextLevelLen_eq H (Nat.lt_of_not_le h)
    have hlt := up_length H level
    rw [dif_neg (by omega), hlen, foldlM_pushNode H le_rfl, take_length, ok_bind,
      tower_of_lt H (by omega),
      ← length_append, pushLevels_eq, append_assoc]

theorem tower_ne_nil (h : level ≠ []) : tower H level ≠ [] := by
  rw [tower]
  split
  · exact h
  · exact append_ne_nil_of_left_ne_nil h _

theorem tower_getLast? (h : 1 < level.length) :
    (tower H level).getLast? = (tower H (up H level)).getLast? := by
  have hne : up H level ≠ [] := by
    rw [← length_pos_iff, up_length]
    omega
  rw [tower_of_lt H h, getLast?_append_of_ne_nil _ (tower_ne_nil H hne)]

theorem new_eq (items : List α) : new H items = .ok ⟨items.length, tower H (items.map H.leaf)⟩ := by
  have h := pushLevels_eq H (items.map H.leaf) []
  simp only [nil_append, length_nil, length_map, Nat.zero_add] at h
  rw [new, h]
  rfl

/-! ## Proofs -/

section

variable {H : MerkleHashes α η} (hH : H.Injective) {lsib rsib : Option η}
  {path path' : List (ProofEntry η)}
include hH

/-- One round finds the sibling, whose hash with the node is the node above, and with nothing
else. -/
theorem findPathLoop_step (pre : List η) (ha : level[i]? = some a)
    (hpush : pushEntry a path lsib rsib = .ok path') :
    ∃ lsib' rsib', (up H level)[i / 2]? = some (H.intermediate (lsib'.getD a) (rsib'.getD a)) ∧
      (∀ h, H.intermediate (lsib'.getD h) (rsib'.getD h) =
        H.intermediate (lsib'.getD a) (rsib'.getD a) ↔ h = a) ∧
      (∀ target, pushEntry target path' lsib' rsib' = .ok (path' ++ [⟨target, lsib', rsib'⟩])) ∧
      findPathLoop (pre ++ tower H level) pre.length level.length i lsib rsib path
        = findPathLoop (pre ++ tower H level) (pre ++ level).length
            (nextLevelLen level.length) (i / 2) lsib' rsib' path' := by
  have hi := (List.getElem?_eq_some_iff.mp ha).1
  obtain ⟨post, hpost⟩ : ∃ post, tower H level = level ++ post := by
    rw [tower]
    split
    · exact ⟨[], (append_nil _).symm⟩
    · exact ⟨_, rfl⟩
  have hindex : ∀ {k b}, level[k]? = some b → index level k = .ok b :=
    fun h => by simp only [index, h]
  rw [findPathLoop, dif_neg (by omega), if_neg (by simp [hpost])]
  simp only [hpost, drop_left, take_left, hindex ha, ok_bind, hpush, length_append]
  by_cases heven : i % 2 = 0
  · have hup :=
      getElem?_up H (show level[2 * (i / 2)]? = some a by rw [show 2 * (i / 2) = i by omega, ha])
    rw [show 2 * (i / 2) + 1 = i + 1 by omega] at hup
    refine ⟨none, some (level[i + 1]?.getD a), hup, fun h => ?_, fun _ => rfl, ?_⟩
    · exact ⟨fun he => (hH.intermediate he).1, fun he => by rw [he]⟩
    · rw [if_pos heven, hindex, ok_bind]
      split
      · rename_i hlt
        simp [getElem?_eq_getElem hlt]
      · rw [ha, getElem?_eq_none (by omega)]
        rfl
  · obtain ⟨b, hb⟩ : ∃ b, level[i - 1]? = some b :=
      ⟨_, getElem?_eq_getElem (show i - 1 < level.length by omega)⟩
    have hup :=
      getElem?_up H (show level[2 * (i / 2)]? =
        some b by rw [show 2 * (i / 2) = i - 1 by omega, hb])
    rw [show 2 * (i / 2) + 1 = i by omega, ha] at hup
    refine ⟨some b, none, hup, fun h => ?_, fun _ => rfl, ?_⟩
    · exact ⟨fun he => (hH.intermediate he).2, fun he => by rw [he]⟩
    · rw [if_neg heven, hindex hb, ok_bind]

/-- From a node on, a path leads to the root and accepts nothing but the node. -/
theorem findPathLoop_spec [DecidableEq η] {level : List η} {i : Nat} {a : η} {lsib rsib : Option η}
    {path path' : List (ProofEntry η)} (pre : List η) (ha : level[i]? = some a)
    (hpush : pushEntry a path lsib rsib = .ok path') :
    ∃ rest, findPathLoop (pre ++ tower H level) pre.length level.length i lsib rsib path =
      .ok (path' ++ rest) ∧ (rest ≠ [] ↔ 1 < level.length) ∧
      (a :: rest.map ProofEntry.target).getLast? = (tower H level).getLast? ∧
      ∀ h, (rest.foldlM (verifyEntry H) h).isSome = true ↔ level.length ≤ 1 ∨ h = a := by
  obtain ⟨lsib', rsib', hup, hinj, hpush', hstep⟩ := findPathLoop_step hH pre ha hpush
  rw [hstep]
  have hi := (List.getElem?_eq_some_iff.mp ha).1
  by_cases hlen : level.length ≤ 1
  · refine ⟨[], ?_, iff_of_false (fun h => h rfl) hlen.not_gt, ?_,
      fun h => ⟨fun _ => .inl hlen, fun _ => rfl⟩⟩
    · rw [findPathLoop, dif_pos (by rw [show level.length = 1 by omega]; rfl), append_nil]
    · obtain ⟨b, rfl⟩ := length_eq_one_iff.mp (show level.length = 1 by omega)
      rw [tower_of_le H hlen]
      cases i with
      | zero => exact ha.symm
      | succ i => cases ha
  · have hlength := nextLevelLen_eq H (Nat.lt_of_not_le hlen)
    have hlt := up_length H level
    obtain ⟨rest, hloop, -, hlast, hverify⟩ := findPathLoop_spec (pre ++ level) hup (hpush' _)
    rw [append_assoc, ← tower_of_lt H (by omega), ← hlength] at hloop
    refine ⟨_ :: rest, by rw [hloop, append_assoc]; rfl, iff_of_true (cons_ne_nil _ _) (by omega),
      ?_, fun h => ?_⟩
    · rw [tower_getLast? H (by omega), ← hlast]
      rfl
    · rw [foldlM_cons, or_iff_right hlen, ← hinj h]
      by_cases he : H.intermediate (lsib'.getD h) (rsib'.getD h) =
          H.intermediate (lsib'.getD a) (rsib'.getD a)
      · simp only [verifyEntry, he, iff_true]
        exact (hverify _).mpr (.inr rfl)
      · simp [verifyEntry, he]

/-- **A proof accepts exactly its leaf and ends at the root**, exactly if there are two leaves or
more. -/
theorem findPath_verify_iff [DecidableEq η] (items : List α) :
    ∃ tree, new H items = .ok tree ∧ ∀ i item, items[i]? = some item →
      ∃ path, tree.findPath i = .ok (some path) ∧ ((∀ h, verify H path h = true ↔ h = H.leaf item) ∧
        path.getLast?.map ProofEntry.target = tree.getRoot ↔ 2 ≤ items.length) := by
  refine ⟨_, new_eq H items, fun i item hitem => ?_⟩
  have hi := (List.getElem?_eq_some_iff.mp hitem).1
  have ha : (items.map H.leaf)[i]? =
      some (H.leaf item) := by rw [getElem?_map, hitem, Option.map_some]
  obtain ⟨path, hloop, hne, hlast, hverify⟩ := findPathLoop_spec hH [] ha
    (show pushEntry _ [] none none = .ok [] from rfl)
  rw [length_map] at hloop hne hverify
  refine ⟨path, ?_, ?_⟩
  · rw [findPath, if_neg (Nat.not_le.mpr hi)]
    exact congrArg (Except.map some) hloop
  · rw [getRoot, ← hlast, ← getLast?_map]
    cases path with
    | nil => exact iff_of_false (fun h => nomatch h.2) fun h => hne.mpr h rfl
    | cons e rest =>
      have hlen := hne.mp (cons_ne_nil e rest)
      refine iff_of_true ⟨fun h => ?_, getLast?_cons_cons.symm⟩ hlen
      rw [verify, hverify h, or_iff_right hlen.not_ge]

end

/-! ## What a root determines -/

/-- The root of a level. -/
def root (level : List η) : Option η := (tower H level).getLast?

/-- The items with what stands in for missing ones: at every level an odd last node is repeated. -/
def completed (items : List α) : Option (List α) :=
  root ⟨fun a => [a], (· ++ ·)⟩ (items.map fun a => [a])

section

variable {η' : Type} {H : MerkleHashes α η} {H' : MerkleHashes α η'} {φ : η → η'}
  (hφ : ∀ l r, φ (H.intermediate l r) = H'.intermediate (φ l) (φ r))
include hφ

theorem up_map (level : List η) : up H' (level.map φ) = (up H level).map φ := by
  fun_induction up H level with
  | case1 l r rest ih => simp only [map_cons, up, ih, hφ]
  | case2 l => simp only [map_cons, map_nil, up, hφ]
  | case3 => rfl

theorem tower_map (level : List η) : tower H' (level.map φ) = (tower H level).map φ := by
  by_cases hle : level.length ≤ 1
  · rw [tower_of_le H hle, tower_of_le H' (by rwa [length_map])]
  · have hup := up_length H level
    rw [tower_of_lt H (by omega), tower_of_lt H' (by rw [length_map]; omega), up_map hφ,
      tower_map (up H level),
      map_append]
termination_by level.length

theorem root_map (level : List η) : root H' (level.map φ) = (root H level).map φ := by
  rw [root, tower_map hφ, getLast?_map]
  rfl

end

end MerkleTree

open MerkleTree

/-- Hashes without collisions: what was hashed. -/
inductive Digest (α : Type) where
  | leaf (a : α)
  | intermediate (l r : Digest α)
  deriving DecidableEq, Inhabited

namespace Digest

variable {H : MerkleHashes α η}

def hashes : MerkleHashes α (Digest α) := ⟨leaf, intermediate⟩

theorem hashes_injective : (hashes (α := α)).Injective := ⟨Digest.leaf.inj, Digest.intermediate.inj⟩

def hash (H : MerkleHashes α η) : Digest α → η
  | leaf a => H.leaf a
  | intermediate l r => H.intermediate (hash H l) (hash H r)

def leaves : Digest α → List α
  | leaf a => [a]
  | intermediate l r => leaves l ++ leaves r

/-- All leaves are `k` levels below. -/
def Complete : Nat → Digest α → Prop
  | 0, leaf _ => True
  | k + 1, intermediate l r => Complete k l ∧ Complete k r
  | _, _ => False

theorem hash_injective (hH : H.Injective) (hdisjoint : ∀ a l r, H.leaf a ≠ H.intermediate l r) :
    ∀ d d' : Digest α, hash H d = hash H d' → d = d'
  | leaf _, leaf _, h => congrArg leaf (hH.leaf h)
  | leaf _, intermediate .., h => absurd h (hdisjoint _ _ _)
  | intermediate .., leaf _, h => absurd h.symm (hdisjoint _ _ _)
  | intermediate .., intermediate .., h => by
    obtain ⟨hl, hr⟩ := hH.intermediate h
    rw [hash_injective hH hdisjoint _ _ hl, hash_injective hH hdisjoint _ _ hr]

theorem Complete.length_leaves : ∀ {k : Nat} {d : Digest α}, Complete k d → d.leaves.length = 2 ^ k
  | 0, leaf _, _ => rfl
  | k + 1, intermediate l r, h => by
    rw [leaves, length_append, h.1.length_leaves, h.2.length_leaves, Nat.pow_succ, Nat.mul_two]

theorem Complete.eq_of_leaves : ∀ {k : Nat} {d d' : Digest α}, Complete k d → Complete k d' →
    d.leaves = d'.leaves → d = d'
  | 0, leaf _, leaf _, _, _, h => congrArg leaf (cons.inj h).1
  | k + 1, intermediate .., intermediate .., h, h', heq => by
    obtain ⟨hl, hr⟩ := append_inj heq (by rw [h.1.length_leaves, h'.1.length_leaves])
    rw [h.1.eq_of_leaves h'.1 hl, h.2.eq_of_leaves h'.2 hr]

theorem complete_up {k : Nat} {level : List (Digest α)} (h : ∀ d ∈ level, Complete k d) :
    ∀ d ∈ up hashes level, Complete (k + 1) d := by
  fun_induction up hashes level with
  | case1 l r rest ih =>
    simp only [forall_mem_cons] at h ⊢
    exact ⟨⟨h.1, h.2.1⟩, ih h.2.2⟩
  | case2 l => exact forall_mem_singleton.mpr ⟨h l mem_cons_self, h l mem_cons_self⟩
  | case3 => exact nofun

theorem exists_root {k : Nat} {level : List (Digest α)} (hne : level ≠ [])
    (h : ∀ d ∈ level, Complete k d) : ∃ k' d, root hashes level = some d ∧ Complete k' d := by
  by_cases hle : level.length ≤ 1
  · have hpos := length_pos_iff.mpr hne
    obtain ⟨d, rfl⟩ := length_eq_one_iff.mp (show level.length = 1 by omega)
    exact ⟨k, d, by rw [root, tower_of_le _ hle]; rfl, h d mem_cons_self⟩
  · have hup := up_length hashes level
    obtain ⟨k', d, hroot, hd⟩ := exists_root (length_pos_iff.mp (by omega)) (complete_up h)
    exact ⟨k', d, (tower_getLast? _ (by omega)).trans hroot, hd⟩
termination_by level.length

/-- The root is the hash of a complete tree, whose leaves are the completed items. -/
theorem root_eq (H : MerkleHashes α η) {items : List α} (hne : items ≠ []) :
    ∃ k d, Complete k d ∧ root H (items.map H.leaf) = some (hash H d) ∧
      completed items = some d.leaves := by
  have hleaves : ∀ d ∈ items.map leaf, Complete 0 d := by simp [Complete]
  obtain ⟨k, d, hroot, hd⟩ := exists_root (by simpa using hne) hleaves
  refine ⟨k, d, hd, ?_, ?_⟩
  · rw [show items.map H.leaf = (items.map leaf).map (hash H) by rw [map_map]; rfl,
      root_map (H := hashes) (fun _ _ => rfl), hroot]
    rfl
  · rw [completed, show (items.map fun a => [a]) = (items.map leaf).map leaves by rw [map_map]; rfl,
      root_map (H := hashes) (fun _ _ => rfl), hroot]
    rfl

end Digest

def hashTransactions [Inhabited η] (H : MerkleHashes Signature η)
    (transactions : List Transaction) : Except Panic η := do
  let tree ← new H (transactions.flatMap Transaction.signatures)
  .ok (tree.getRoot.getD default)

section

variable [Inhabited η] {H : MerkleHashes Signature η} (hH : H.Injective)
  (hdisjoint : ∀ a l r, H.leaf a ≠ H.intermediate l r)
  {transactions transactions' : List Transaction}
  (hne : transactions.flatMap Transaction.signatures ≠ [])
  (hne' : transactions'.flatMap Transaction.signatures ≠ [])
include hH hdisjoint hne hne'

theorem hashTransactions_eq_iff_completed :
    hashTransactions H transactions = hashTransactions H transactions' ↔
    completed (transactions.flatMap Transaction.signatures)
      = completed (transactions'.flatMap Transaction.signatures) := by
  obtain ⟨k, d, hd, hroot, hcompleted⟩ := Digest.root_eq H hne
  obtain ⟨k', d', hd', hroot', hcompleted'⟩ := Digest.root_eq H hne'
  rw [root] at hroot hroot'
  simp only [hashTransactions, new_eq, ok_bind, getRoot, hroot, hroot', hcompleted, hcompleted',
    Option.getD_some,
    Except.ok.injEq, Option.some.injEq]
  refine ⟨fun h => congrArg _ (Digest.hash_injective hH hdisjoint d d' h), fun h => ?_⟩
  have hlen := congrArg List.length h
  rw [hd.length_leaves, hd'.length_leaves] at hlen
  obtain rfl := Nat.pow_right_injective le_rfl hlen
  rw [hd.eq_of_leaves hd' h]

/-- **The hash of an entry determines its signatures** exactly if the lists with every odd last node
repeated do. -/
theorem hashTransactions_inj_iff :
    (hashTransactions H transactions = hashTransactions H transactions' →
      transactions.flatMap Transaction.signatures = transactions'.flatMap Transaction.signatures) ↔
    (completed (transactions.flatMap Transaction.signatures)
        = completed (transactions'.flatMap Transaction.signatures) →
      transactions.flatMap Transaction.signatures =
        transactions'.flatMap Transaction.signatures) := by
  rw [hashTransactions_eq_iff_completed hH hdisjoint hne hne']

end

theorem findPath_verify_iff_three : ∃ tree path, new Digest.hashes [5, 6, 7] = .ok tree ∧
    tree.findPath 2 = .ok (some path) ∧
      (∀ h, verify Digest.hashes path h = true ↔ h = Digest.leaf 7) ∧
    path.getLast?.map ProofEntry.target = tree.getRoot := by
  obtain ⟨tree, htree, hpaths⟩ := findPath_verify_iff Digest.hashes_injective [5, 6, 7]
  obtain ⟨path, hpath, hiff⟩ := hpaths 2 7 rfl
  exact ⟨tree, path, htree, hpath, hiff.mpr (by decide)⟩

/-- The proof of the only leaf accepts everything. -/
theorem findPath_verify_single :
    ∃ tree, new Digest.hashes [5] = .ok tree ∧ tree.findPath 0 = .ok (some []) ∧
    verify Digest.hashes [] (Digest.leaf 6) = true := by
  refine ⟨_, new_eq _ _, ?_, rfl⟩
  simp [findPath, findPathLoop, tower, nextLevelLen]
  rfl

def emptyMessage : Message := ⟨⟨0, 0, 0⟩, [], 0, []⟩

/-- Three signatures, and the first two of them. -/
theorem hashTransactions_inj_iff_three :
    hashTransactions Digest.hashes [⟨[1, 2], emptyMessage⟩, ⟨[3], emptyMessage⟩]
    ≠ hashTransactions Digest.hashes [⟨[1, 2], emptyMessage⟩] := by
  have hthree (a b c : Signature) : completed [a, b, c] =
      some [a, b, c, c] := by simp [completed, root, tower, up]
  have htwo (a b : Signature) : completed [a, b] =
      some [a, b] := by simp [completed, root, tower, up]
  have hne : [⟨[1, 2], emptyMessage⟩, ⟨[3], emptyMessage⟩].flatMap Transaction.signatures ≠ [] :=
    nofun
  have hne' : [⟨[1, 2], emptyMessage⟩].flatMap Transaction.signatures ≠ [] := nofun
  have hinj := (hashTransactions_inj_iff Digest.hashes_injective (fun _ _ _ => nofun) hne hne').mpr
    fun heq =>
    nomatch (hthree 1 2 3).symm.trans (heq.trans (htwo 1 2))
  exact fun h => nomatch hinj h

/-- A last signature that stands twice is not seen. -/
theorem hashTransactions_odd : hashTransactions Digest.hashes [⟨[1, 2, 3], emptyMessage⟩]
    = hashTransactions Digest.hashes [⟨[1, 2, 3, 3], emptyMessage⟩] := by
  simp [hashTransactions, new_eq, ok_bind, getRoot, tower, up]

end Panoptes.Ledger
