import Mathlib.Tactic.Ring
import Panoptes.Lib.Links
import Panoptes.Runtime.RentPartitions

/-!
# The keys of the partitions of a chain

The first eight bytes of a key lie in one of the equal blocks that a cycle has for its slots; the
last block also takes what is left over.  A partition from one index to another is the blocks after
the first index up to the second, the pair of zeros is the first block, and any other pair of equal
indices is a single key.

* `block` — the block of a key.
* `contains_iff` — the keys of a partition by their blocks.
* `BankChain` — banks that descend from each other.
* `attributed` — the cycles that the partitions of a bank are for.
-/

set_option autoImplicit false

namespace Panoptes.Runtime

open Lib Sdk

/-! ## Blocks -/

def blockWidth (n : Nat) : Nat := U64 / n

def block (n : Nat) (key : Pubkey) : Nat := min (key.toNat / 2 ^ 192 / blockWidth n) (n - 1)

namespace Partition

def covers (p : Partition) (i : Nat) : Prop := (p.1 = 0 ∧ p.2.1 = 0 ∧ i = 0) ∨ (p.1 < i ∧ i ≤ p.2.1)

/-- A pair of equal indices after the first stands for no block. -/
def IsNoop (p : Partition) : Prop := p.1 ≠ 0 ∧ p.1 = p.2.1

end Partition

variable {n i j : Nat} {p : Partition}

theorem partitionWidth_eq (hn : 0 < n) (hlt : n < U64) :
    (PREFIX_MAX - n + 1) / n + 1 = blockWidth n := by
  have hsub : PREFIX_MAX - n + 1 = U64 - n := by
    simp only [PREFIX_MAX]
    omega
  rw [hsub, blockWidth, ← Nat.add_div_right _ hn, Nat.sub_add_cancel hlt.le]

theorem blockWidth_pos (hn : 0 < n) (hlt : n < U64) : 0 < blockWidth n := Nat.div_pos hlt.le hn

theorem mul_blockWidth_le (n : Nat) : n * blockWidth n ≤ U64 := Nat.mul_div_le _ _

theorem pubkeyOf_toNat {high low : Nat} (hhigh : high < U64) (hlow : low < 2 ^ 192) :
    (pubkeyOf high low).toNat = high * 2 ^ 192 + low := by
  simp only [U64] at hhigh
  rw [pubkeyOf, BitVec.toNat_ofNat]
  omega

theorem range_iff {first last : Nat} (hfirst : first < U64) (hlast : last < U64) (key : Pubkey) :
    (pubkeyOf first 0 ≤ key ∧ key ≤ pubkeyOf last SUFFIX_MAX) ↔
      first ≤ key.toNat / 2 ^ 192 ∧ key.toNat / 2 ^ 192 ≤ last := by
  have h1 := pubkeyOf_toNat hfirst (show 0 < 2 ^ 192 by decide)
  have h2 := pubkeyOf_toNat hlast (show SUFFIX_MAX < 2 ^ 192 by decide)
  rw [BitVec.le_def, BitVec.le_def, h2]
  simp only [SUFFIX_MAX]
  omega

/-- The first prefix of the blocks after an index, and the last one up to an index. -/
theorem block_bounds {x : Nat} (hn : 0 < n) (hlt : n < U64) (hj : j < n) (hx : x < U64) :
    (i < min (x / blockWidth n) (n - 1) ↔ i + 1 < n ∧ (i + 1) * blockWidth n ≤ x) ∧
      (min (x / blockWidth n) (n - 1) ≤ j ↔
        x ≤ if j + 1 = n then PREFIX_MAX else (j + 1) * blockWidth n - 1) := by
  have hw := blockWidth_pos hn hlt
  constructor
  · rw [lt_min_iff, ← Nat.succ_le_iff, Nat.le_div_iff_mul_le hw]
    simp only [Nat.succ_eq_add_one]
    omega
  · split
    · simp only [PREFIX_MAX]
      omega
    · rw [min_le_iff, ← Nat.lt_add_one_iff, Nat.div_lt_iff_lt_mul hw]
      have : 0 < (j + 1) * blockWidth n := Nat.mul_pos (by omega) hw
      omega

theorem startKey_lt (hn : 0 < n) (hlt : n < U64) (hi : i + 1 < n) :
    (i + 1) * blockWidth n < U64 := by
  have hw := blockWidth_pos hn hlt
  have hle := mul_blockWidth_le n
  calc (i + 1) * blockWidth n < (i + 1) * blockWidth n + blockWidth n := Nat.lt_add_of_pos_right hw
    _ = (i + 2) * blockWidth n := by ring
    _ ≤ n * blockWidth n := Nat.mul_le_mul_right _ hi
    _ ≤ U64 := hle

theorem pubkeyRangeFromPartition_eq (hn : 2 ≤ n) (hlt : n < U64) (hle : i ≤ j) (hj : j < n) :
    let startKey := if i = 0 ∧ j = 0 then 0 else if i + 1 = n then PREFIX_MAX
      else (i + 1) * blockWidth n
    let endKey := if j + 1 = n then PREFIX_MAX else (j + 1) * blockWidth n - 1
    pubkeyRangeFromPartition (i, j, n) = .ok
      (if i ≠ 0 ∧ i = j then
        if endKey = PREFIX_MAX then (pubkeyOf endKey SUFFIX_MAX, pubkeyOf endKey SUFFIX_MAX)
        else (pubkeyOf startKey 0, pubkeyOf startKey 0)
      else (pubkeyOf startKey 0, pubkeyOf endKey SUFFIX_MAX)) := by
  intro startKey endKey
  unfold pubkeyRangeFromPartition
  dsimp only
  rw [assert_pos hle, assert_pos (show i < n by omega), assert_pos hj,
    assert_pos (show 0 < n by omega), if_neg (by omega), partitionWidth_eq (by omega) hlt]
  split
  · show (if endKey = PREFIX_MAX then _ else _) = _
    split <;> rfl
  · rfl

theorem contains_of_range {range : Pubkey × Pubkey} (h : pubkeyRangeFromPartition p = .ok range)
    (key : Pubkey) : p.contains key = true ↔ range.1 ≤ key ∧ key ≤ range.2 := by
  simp [Partition.contains, h]

theorem contains_of_blocks (hn : 2 ≤ n) (hlt : n < U64) (hle : i ≤ j) (hj : j < n)
    (hnoop : ¬ (i ≠ 0 ∧ i = j)) (key : Pubkey) :
    Partition.contains (i, j, n) key = true ↔ Partition.covers (i, j, n) (block n key) := by
  have hrange := pubkeyRangeFromPartition_eq hn hlt hle hj
  dsimp only at hrange
  rw [if_neg hnoop] at hrange
  have hx : key.toNat / 2 ^ 192 < U64 := by
    simp only [U64]
    omega
  have hlast : (if j + 1 = n then PREFIX_MAX else (j + 1) * blockWidth n - 1) < U64 := by
    split
    · decide
    · have := startKey_lt (show 0 < n by omega) hlt (show j + 1 < n by omega)
      omega
  obtain ⟨hlo, hhi⟩ := block_bounds (show 0 < n by omega) hlt hj hx
  rw [contains_of_range hrange]
  unfold Partition.covers block
  dsimp only
  by_cases hzero : i = 0 ∧ j = 0
  · rw [if_pos hzero, range_iff (by decide) hlast, ← hhi]
    generalize min (key.toNat / 2 ^ 192 / blockWidth n) (n - 1) = m
    omega
  · have hi : i + 1 < n := by omega
    rw [if_neg hzero, if_neg (by omega), range_iff (startKey_lt (by omega) hlt hi) hlast, ← hhi]
    constructor
    · rintro ⟨h1, h2⟩
      exact .inr ⟨hlo.mpr ⟨hi, h1⟩, h2⟩
    · rintro (⟨h1, h2, -⟩ | ⟨h1, h2⟩)
      · exact absurd ⟨h1, h2⟩ hzero
      · exact ⟨(hlo.mp h1).2, h2⟩

/-- The key of a partition that stands for no block, at the start or the end of a prefix. -/
theorem contains_of_noop (hn : 2 ≤ n) (hlt : n < U64) (hi : i < n) (h0 : i ≠ 0) :
    ∃ noop : Pubkey, (noop.toNat % 2 ^ 192 = 0 ∨ noop.toNat % 2 ^ 192 = SUFFIX_MAX) ∧
      ∀ key : Pubkey, Partition.contains (i, i, n) key = true ↔ key = noop := by
  have hrange := pubkeyRangeFromPartition_eq hn hlt le_rfl hi
  dsimp only at hrange
  rw [if_pos ⟨h0, rfl⟩] at hrange
  have hone : ∀ {noop : Pubkey}, pubkeyRangeFromPartition (i, i, n) = .ok (noop, noop) →
      ∀ key : Pubkey,
      Partition.contains (i, i, n) key = true ↔ key = noop := by
    intro noop h key
    rw [contains_of_range h, BitVec.le_def, BitVec.le_def, ← BitVec.toNat_inj]
    dsimp only
    omega
  by_cases hend : (if i + 1 = n then PREFIX_MAX else (i + 1) * blockWidth n - 1) = PREFIX_MAX
  · rw [hend] at hrange
    refine ⟨_, .inr ?_, hone hrange⟩
    decide +kernel
  · rw [if_neg hend, if_neg (by omega)] at hrange
    have hne : i + 1 ≠ n := fun h => hend (if_pos h)
    rw [if_neg hne] at hrange
    refine ⟨_, .inl ?_, hone hrange⟩
    rw [pubkeyOf_toNat (startKey_lt (by omega) hlt (by omega)) (by decide)]
    simp

/-- **The keys of a partition are those of its blocks**, or one key. -/
theorem contains_iff (hn : 2 ≤ p.2.2) (hlt : p.2.2 < U64) (hvalid : p.IsValid) :
    ∃ noop : Pubkey, (noop.toNat % 2 ^ 192 = 0 ∨ noop.toNat % 2 ^ 192 = SUFFIX_MAX) ∧
      ∀ key : Pubkey, p.contains key = true ↔ p.covers (block p.2.2 key) ∨
        (p.IsNoop ∧ key = noop) := by
  obtain ⟨i, j, n⟩ := p
  obtain ⟨hle, hj⟩ := hvalid
  by_cases hnoop : i ≠ 0 ∧ i = j
  · obtain ⟨h0, rfl⟩ := hnoop
    obtain ⟨noop, hlow, hiff⟩ := contains_of_noop hn hlt hj h0
    refine ⟨noop, hlow, fun key => ?_⟩
    rw [hiff key]
    simp only [Partition.covers, Partition.IsNoop]
    constructor
    · exact fun h => .inr ⟨⟨h0, trivial⟩, h⟩
    · rintro (h | h)
      · omega
      · exact h.2
  · refine ⟨0, .inl rfl, fun key => ?_⟩
    rw [contains_of_blocks hn hlt hle hj hnoop]
    exact ⟨.inl, fun h => h.resolve_right fun h => hnoop h.1⟩

/-- A key of a block that is at neither end of a prefix. -/
def keyOf (n i : Nat) : Pubkey := pubkeyOf (i * blockWidth n) 1

theorem keyOf_toNat (hlt : n < U64) (hi : i < n) :
    (keyOf n i).toNat = i * blockWidth n * 2 ^ 192 + 1 := by
  refine pubkeyOf_toNat ?_ (by decide)
  cases i with
  | zero => simp [U64]
  | succ i => exact startKey_lt (by omega) hlt hi

theorem block_keyOf (hlt : n < U64) (hi : i < n) : block n (keyOf n i) = i := by
  have hw := blockWidth_pos (show 0 < n by omega) hlt
  rw [block, keyOf_toNat hlt hi, Nat.add_div_of_dvd_right (Dvd.intro_left _ rfl),
    Nat.mul_div_cancel _ (by decide), Nat.div_eq_of_lt (show 1 < 2 ^ 192 by decide), Nat.add_zero,
    Nat.mul_div_cancel _ hw]
  omega

theorem block_lt (hn : 0 < n) (key : Pubkey) : block n key < n := by
  unfold block
  omega

theorem contains_keyOf (hn : 2 ≤ p.2.2) (hlt : p.2.2 < U64) (hvalid : p.IsValid)
    (hi : i < p.2.2) : p.contains (keyOf p.2.2 i) = true ↔ p.covers i := by
  obtain ⟨noop, hlow, hiff⟩ := contains_iff hn hlt hvalid
  rw [hiff, block_keyOf hlt hi]
  refine or_iff_left ?_
  rintro ⟨-, rfl⟩
  rw [keyOf_toNat hlt hi] at hlow
  simp only [SUFFIX_MAX] at hlow
  omega

/-! ## Chains of banks -/

/-- Banks that descend from each other.  A genesis bank is in slot 0 and its own parent. -/
structure BankChain where
  genesis : Bool
  /-- The slot of the parent of the first bank after genesis. -/
  parent : Nat
  slots : List Nat
  increasing : List.IsChain (· < ·) (parent :: slots)
  genesis_parent : genesis = true → parent = 0

/-- The slots that a bank stands for: those after its parent, up to its own. -/
def Spans (bank : Nat × Nat) (t : Nat) : Prop := t ≤ bank.2 ∧ (bank.1 < t ∨ bank.2 = 0)

namespace BankChain

/-- A chain whose first bank is the child of the bank of genesis. -/
def fromGenesis (slots : List Nat) (h : List.IsChain (· < ·) (0 :: slots)) : BankChain :=
  ⟨true, 0, slots, h, fun _ => rfl⟩

variable {chain : BankChain} {bank : Nat × Nat} {t : Nat}

/-- The parent's slot and the slot of each bank. -/
def banks (chain : BankChain) : List (Nat × Nat) :=
  (if chain.genesis then [(0, 0)] else []) ++ links chain.parent chain.slots

/-- The chain has banks before and after a slot. -/
def Reaches (chain : BankChain) (t : Nat) : Prop :=
  (chain.parent < t ∨ chain.genesis = true) ∧ ∃ bank ∈ chain.banks, t ≤ bank.2

section

variable (h : bank ∈ chain.banks)
include h

theorem mem_banks :
    (chain.genesis = true ∧ bank = (0, 0)) ∨
      (chain.parent ≤ bank.1 ∧ bank.1 < bank.2 ∧ bank.2 ∈ chain.slots) := by
  rcases List.mem_append.mp h with h | h
  · split at h
    · rename_i hgenesis
      exact .inl ⟨hgenesis, List.mem_singleton.mp h⟩
    · cases h
  · exact .inr (mem_links chain.increasing h)

theorem le_of_mem_banks : bank.1 ≤ bank.2 := by
  rcases mem_banks h with ⟨-, rfl⟩ | ⟨-, hlt, -⟩
  · exact le_rfl
  · exact hlt.le

theorem spans_self : Spans bank bank.2 := by
  rcases mem_banks h with ⟨-, rfl⟩ | ⟨-, hlt, -⟩
  · exact ⟨le_rfl, .inr rfl⟩
  · exact ⟨le_rfl, .inl hlt⟩

omit h in
/-- **Some bank stands for each slot that the chain reaches.** -/
theorem exists_spans (h : chain.Reaches t) : ∃ bank ∈ chain.banks, Spans bank t := by
  obtain ⟨hstart, bank, hbank, hle⟩ := h
  by_cases hlt : chain.parent < t
  · rcases mem_banks hbank with ⟨-, rfl⟩ | ⟨-, -, hmem⟩
    · omega
    · obtain ⟨l, hl, h1, h2⟩ := exists_link hlt ⟨bank.2, hmem, hle⟩
      exact ⟨l, List.mem_append_right _ hl, h2, .inl h1⟩
  · have hgenesis := hstart.resolve_left hlt
    have hparent := chain.genesis_parent hgenesis
    refine ⟨(0, 0), ?_, show t ≤ 0 by omega, .inr rfl⟩
    rw [banks, if_pos hgenesis]
    exact List.mem_cons_self

omit h in
/-- **No slot has two banks that stand for it.** -/
theorem banks_pairwise (chain : BankChain) :
    chain.banks.Pairwise fun bank bank' => ∀ t, ¬ (Spans bank t ∧ Spans bank' t) := by
  have hlinks : (links chain.parent chain.slots).Pairwise fun bank bank' =>
      ∀ t, ¬ (Spans bank t ∧ Spans bank' t) := by
    refine (List.Pairwise.and_mem.mp (links_pairwise chain.increasing)).imp ?_
    rintro l l' ⟨hl, hl', hle⟩ t ⟨⟨h1, h2⟩, h3, h4⟩
    have := mem_links chain.increasing hl
    have := mem_links chain.increasing hl'
    omega
  unfold banks
  split
  · refine List.pairwise_cons.mpr ⟨?_, hlinks⟩
    rintro l hl t ⟨⟨h1, -⟩, -, h4⟩
    have := mem_links chain.increasing hl
    omega
  · exact hlinks

theorem eq_of_spans {bank' : Nat × Nat} (h' : bank' ∈ chain.banks) (hs : Spans bank t)
    (hs' : Spans bank' t) : bank = bank' := by
  by_contra hne
  have hsymm : Std.Symm fun bank bank' : Nat × Nat => ∀ t, ¬ (Spans bank t ∧ Spans bank' t) :=
    ⟨fun _ _ hnot t hspans => hnot t hspans.symm⟩
  exact chain.banks_pairwise.forall h h' hne t ⟨hs, hs'⟩

theorem slot_of_spans (hs : Spans bank t) (ht : t ∈ chain.slots) : bank.2 = t := by
  obtain ⟨l, hl, rfl⟩ := exists_link_to chain.parent ht
  have hl : l ∈ chain.banks := List.mem_append_right _ hl
  rw [eq_of_spans h hl hs (spans_self hl)]

end

end BankChain

/-- The cycles that the partitions of a bank are for: with partitions for skipped slots, the first
one is for the cycle of the parent. -/
def attributed (parentCycle cycle : Nat) : List Partition → List (Nat × Partition)
  | [] => []
  | [p] => [(cycle, p)]
  | p :: rest => (parentCycle, p) :: rest.map (cycle, ·)

theorem mem_of_mem_attributed {parentCycle cycle : Nat} {ps : List Partition} {r : Nat × Partition}
    (h : r ∈ attributed parentCycle cycle ps) : r.2 ∈ ps := by
  match ps, h with
  | [p], h => rw [List.mem_singleton.mp h]; exact List.mem_cons_self
  | p :: q :: rest, h =>
    rcases List.mem_cons.mp h with rfl | h
    · exact List.mem_cons_self
    · obtain ⟨p', hp', rfl⟩ := List.mem_map.mp h
      exact List.mem_cons_of_mem _ hp'

end Panoptes.Runtime
