import Panoptes.Runtime.RentRanges

/-!
# Coverage of fixed cycles

Each slot of a cycle has its block of keys.  The banks of a chain collect rent from the blocks of
the slots they stand for, with one exception: a bank in the first slot of a cycle does not catch up
the slots skipped at the end of the cycle before.

* `visits_iff` — the slots whose blocks a bank visits.

Principal result: `fixedCycle_visits_iff`.
-/

set_option autoImplicit false

namespace Panoptes.Runtime

open Lib Sdk List

variable {bank : Nat × Nat} {n : Nat} {r : Nat × Partition} {p : Partition} {key : Pubkey}

/-- The partitions of a bank with their cycles. -/
def fixedRanges (n : Nat) (bank : Nat × Nat) : List (Nat × Partition) :=
  attributed (bank.1 / n) (bank.2 / n) (fixedPartitions n bank.1 bank.2)

/-- The partitions of a bank: blocks after the parent's, and those of skipped slots around the start
of a cycle. -/
theorem fixedRanges_eq (n : Nat) (bank : Nat × Nat) :
    fixedRanges n bank =
      if bank.1 / n < bank.2 / n then
        if 0 < bank.2 % n then [(bank.1 / n, bank.1 % n, n - 1, n), (bank.2 / n, 0, 0, n),
          (bank.2 / n, 0, bank.2 % n, n)]
        else [(bank.2 / n, 0, bank.2 % n, n)]
      else [(bank.2 / n, bank.1 % n, bank.2 % n, n)] := by
  unfold fixedRanges fixedPartitions
  dsimp only
  split
  · split <;> rfl
  · rfl

/-- A bank visits the block of a slot. -/
def Visits (n : Nat) (bank : Nat × Nat) (t : Nat) : Prop :=
  ∃ p, (t / n, p) ∈ fixedRanges n bank ∧ p.covers (t % n)

theorem lt_iff_div_mod (hn : 0 < n) (a b : Nat) :
    a < b ↔ a / n < b / n ∨ (a / n = b / n ∧ a % n < b % n) := by
  have ha := Nat.div_add_mod a n
  have hb := Nat.div_add_mod b n
  have hra := Nat.mod_lt a hn
  have hrb := Nat.mod_lt b hn
  rcases lt_trichotomy (a / n) (b / n) with h | h | h
  · have : n * (a / n + 1) ≤ n * (b / n) := Nat.mul_le_mul_left n h
    rw [Nat.mul_add] at this
    exact ⟨fun _ => .inl h, fun _ => by omega⟩
  · rw [h] at ha
    exact ⟨fun _ => .inr ⟨h, by omega⟩, fun _ => by omega⟩
  · have : n * (b / n + 1) ≤ n * (a / n) := Nat.mul_le_mul_left n h
    rw [Nat.mul_add] at this
    exact ⟨fun _ => by omega, fun _ => by omega⟩

/-- **A bank visits the slots it stands for, or only the first slot of a cycle that it is in.** -/
theorem visits_iff (hn : 0 < n) (hbank : bank.1 < bank.2 ∨ bank = (0, 0))
    (hcycle : bank.2 / n ≤ bank.1 / n + 1) (t : Nat) :
    Visits n bank t ↔ Spans bank t ∧ (bank.2 % n = 0 → t = bank.2) := by
  rcases hbank with hlt | rfl
  · obtain ⟨a, b⟩ := bank
    have hspans : Spans (a, b) t ↔ a < t ∧ ¬ b < t := by
      unfold Spans
      omega
    have hrt := Nat.mod_lt t hn
    have hrb := Nat.mod_lt b hn
    rw [hspans, lt_iff_div_mod hn a t, lt_iff_div_mod hn b t, Nat.ext_div_mod_iff n t]
    rw [lt_iff_div_mod hn] at hlt
    unfold Visits
    rw [fixedRanges_eq]
    dsimp only at hlt hcycle ⊢
    generalize a / n = qa at *
    generalize b / n = qb at *
    generalize t / n = qt at *
    by_cases hqab : qa < qb
    · rw [if_pos hqab]
      by_cases hrb : 0 < b % n
      · rw [if_pos hrb]
        simp only [mem_cons, Prod.mk.injEq, not_mem_nil, or_false]
        constructor
        · rintro ⟨p, ⟨hq, rfl⟩ | ⟨hq, rfl⟩ | ⟨hq, rfl⟩, hcovers⟩ <;>
            dsimp only [Partition.covers] at hcovers <;> omega
        · rintro ⟨⟨h1, h2⟩, -⟩
          by_cases hq : qt = qa
          · exact ⟨_, .inl ⟨hq, rfl⟩, .inr (by dsimp only; omega)⟩
          · by_cases hr : t % n = 0
            · exact ⟨_, .inr (.inl ⟨by omega, rfl⟩), .inl ⟨rfl, rfl, hr⟩⟩
            · exact ⟨_, .inr (.inr ⟨by omega, rfl⟩), .inr (by dsimp only; omega)⟩
      · rw [if_neg hrb]
        simp only [mem_singleton, Prod.mk.injEq]
        constructor
        · rintro ⟨p, ⟨hq, rfl⟩, hcovers⟩
          dsimp only [Partition.covers] at hcovers
          omega
        · rintro ⟨-, h⟩
          have := h (by omega)
          exact ⟨_, ⟨this.1, rfl⟩, .inl (by dsimp only; omega)⟩
    · rw [if_neg hqab]
      simp only [mem_singleton, Prod.mk.injEq]
      constructor
      · rintro ⟨p, ⟨hq, rfl⟩, hcovers⟩
        dsimp only [Partition.covers] at hcovers
        omega
      · rintro ⟨⟨h1, h2⟩, -⟩
        exact ⟨_, ⟨by omega, rfl⟩, .inr (by dsimp only; omega)⟩
  · -- The genesis bank visits the first block.
    unfold Visits Spans
    rw [fixedRanges_eq]
    simp only [Nat.zero_div, lt_irrefl, if_false, mem_singleton, Prod.mk.injEq]
    constructor
    · rintro ⟨p, ⟨hq, rfl⟩, hcovers⟩
      simp only [Partition.covers] at hcovers
      have := Nat.div_add_mod t n
      rw [hq] at this
      have ht : t = 0 := by omega
      exact ⟨⟨ht.le, .inr trivial⟩, fun _ => ht⟩
    · rintro ⟨⟨h, -⟩, -⟩
      obtain rfl : t = 0 := by omega
      exact ⟨_, ⟨Nat.zero_div n, rfl⟩, .inl ⟨rfl, rfl, Nat.zero_mod n⟩⟩

/-! ## Chains -/

theorem count_of_mem_fixedPartitions {parentSlot slot : Nat}
    (h : p ∈ fixedPartitions n parentSlot slot) : p.2.2 = n := by
  unfold fixedPartitions at h
  dsimp only at h
  split_ifs at h <;> simp only [cons_append, nil_append, mem_cons, not_mem_nil,
    or_false] at h
  · rcases h with rfl | rfl | rfl <;> rfl
  · rw [h]
  · rw [h]

/-- Two ranges have no key in common, up to those that stand for no block. -/
def Partition.Apart (p q : Partition) : Prop :=
  p.IsNoop ∨ q.IsNoop ∨ ∀ key, ¬ (p.contains key = true ∧ q.contains key = true)

/-- The partition is one of a cycle of `n` slots. -/
theorem fixedRanges_spec (hn : 0 < n) (hle : bank.1 ≤ bank.2)
    (h : r ∈ fixedRanges n bank) : r.2.IsValid ∧ r.2.2.2 = n :=
  ⟨fixedPartitions_valid hn hle _ (mem_of_mem_attributed h),
    count_of_mem_fixedPartitions (mem_of_mem_attributed h)⟩

section

variable (hn : 2 ≤ n) (hlt : n < U64) (hle : bank.1 ≤ bank.2)
include hn hlt hle

theorem contains_of_fixedRanges (h : r ∈ fixedRanges n bank)
    (hnoop : ¬ r.2.IsNoop) (key : Pubkey) : r.2.contains key = true ↔ r.2.covers (block n key) := by
  obtain ⟨hvalid, hcount⟩ := fixedRanges_spec (by omega) hle h
  obtain ⟨noop, -, hiff⟩ := contains_iff (by omega) (by omega) hvalid
  rw [hiff key, hcount]
  exact or_iff_left fun hno => hnoop hno.1

omit hn hlt hle in
theorem slot_div_mod {i : Nat} (k : Nat) (hi : i < n) :
    (k * n + i) / n = k ∧ (k * n + i) % n = i := by
  rw [Nat.mul_comm, Nat.mul_add_div (by omega), Nat.div_eq_of_lt hi, Nat.mul_add_mod,
    Nat.mod_eq_of_lt hi]
  exact ⟨rfl, rfl⟩

theorem visits_of_contains (h : r ∈ fixedRanges n bank)
    (hnoop : ¬ r.2.IsNoop) (hkey : r.2.contains key = true) :
    Visits n bank (r.1 * n + block n key) := by
  obtain ⟨hdiv, hmod⟩ := slot_div_mod r.1 (block_lt (show 0 < n by omega) key)
  refine ⟨r.2, ?_, ?_⟩
  · rw [hdiv]
    exact h
  · rw [hmod]
    exact (contains_of_fixedRanges hn hlt hle h hnoop key).mp hkey

theorem fixedRanges_apart :
    (fixedRanges n bank).Pairwise fun r r' => r.1 = r'.1 → r.2.Apart r'.2 := by
  have hkeys := fun r h => contains_of_fixedRanges hn hlt hle (r := r) h
  rw [fixedRanges_eq] at hkeys ⊢
  split at hkeys
  · rename_i hcycle
    rw [if_pos hcycle]
    split at hkeys
    · rename_i hindex
      rw [if_pos hindex]
      simp only [pairwise_cons, mem_cons, not_mem_nil, forall_eq_or_imp, IsEmpty.forall_iff,
        implies_true, List.Pairwise.nil, and_true]
      refine ⟨⟨fun h => ?_, fun h => ?_⟩, fun _ => .inr (.inr fun key hboth => ?_)⟩
      · omega
      · omega
      · have h1 := (hkeys (bank.2 / n, 0, 0, n) (by simp) (fun h => h.1 rfl) key).mp hboth.1
        have h2 :=
          (hkeys (bank.2 / n, 0, bank.2 % n, n) (by simp) (fun h => h.1 rfl) key).mp hboth.2
        dsimp only [Partition.covers] at h1 h2
        omega
    · rename_i hindex
      rw [if_neg hindex]
      exact pairwise_singleton _ _
  · rename_i hcycle
    rw [if_neg hcycle]
    exact pairwise_singleton _ _

end

namespace BankChain

variable {chain : BankChain} {cycle : Nat}

section

variable (chain : BankChain) (n cycle : Nat)

def fixedRangesOf : List Partition :=
  (chain.banks.flatMap (fixedRanges n)).filterMap fun r => if r.1 = cycle then some r.2 else none

/-- The chain goes through all slots of a cycle. -/
def Completes : Prop :=
  chain.Reaches (cycle * n) ∧ chain.Reaches (cycle * n + (n - 1))

/-- Each cycle after the parent's, up to that of the last bank, has a bank. -/
def EachCycle : Prop :=
  ∀ k, chain.parent / n < k → (∃ s ∈ chain.slots, k ≤ s / n) → ∃ s ∈ chain.slots, s / n = k

end

theorem mem_fixedRangesOf :
    p ∈ chain.fixedRangesOf n cycle ↔ ∃ bank ∈ chain.banks, (cycle, p) ∈ fixedRanges n bank := by
  simp only [fixedRangesOf, mem_filterMap, mem_flatMap, Option.ite_none_right_eq_some,
    Option.some.injEq]
  constructor
  · rintro ⟨r, ⟨bank, hbank, hr⟩, rfl, rfl⟩
    exact ⟨bank, hbank, hr⟩
  · rintro ⟨bank, hbank, hr⟩
    exact ⟨_, ⟨bank, hbank, hr⟩, rfl, rfl⟩

theorem cycle_le_succ (hn : 0 < n) (heach : chain.EachCycle n)
    (h : bank ∈ chain.banks) : bank.2 / n ≤ bank.1 / n + 1 := by
  rcases mem_banks h with ⟨-, rfl⟩ | ⟨hparent, hlt, hmem⟩
  · simp
  · by_contra hgap
    have hdiv : chain.parent / n ≤ bank.1 / n := Nat.div_le_div_right hparent
    obtain ⟨s, hs, hcycle⟩ := heach (bank.1 / n + 1) (by omega) ⟨bank.2, hmem, by omega⟩
    -- A bank between the parent and the bank.
    have h1 : bank.1 < s := (lt_iff_div_mod hn _ _).mpr (.inl (by omega))
    have h2 : s < bank.2 := (lt_iff_div_mod hn _ _).mpr (.inl (by omega))
    have := slot_of_spans h ⟨h2.le, .inl h1⟩ hs
    omega

theorem visits_iff_spans (hn : 0 < n) (heach : chain.EachCycle n)
    (h : bank ∈ chain.banks) (t : Nat) :
    Visits n bank t ↔ Spans bank t ∧ (bank.2 % n = 0 → t = bank.2) := by
  refine visits_iff hn ?_ (cycle_le_succ hn heach h) t
  rcases mem_banks h with ⟨-, rfl⟩ | ⟨-, hlt, -⟩
  · exact .inr rfl
  · exact .inl hlt

theorem fixedRangesOf_apart (hn : 2 ≤ n) (hlt : n < U64) (heach : chain.EachCycle n) (cycle : Nat) :
    (chain.fixedRangesOf n cycle).Pairwise Partition.Apart := by
  have hall : (chain.banks.flatMap (fixedRanges n)).Pairwise fun r r' => r.1 = r'.1 →
      r.2.Apart r'.2 := by
    rw [pairwise_flatMap]
    refine ⟨fun bank h => fixedRanges_apart hn hlt (le_of_mem_banks h), ?_⟩
    refine (List.Pairwise.and_mem.mp chain.banks_pairwise).imp ?_
    rintro bank bank' ⟨h, h', hspans⟩ r hr r' hr' hcycle
    by_cases hnoop : r.2.IsNoop
    · exact .inl hnoop
    by_cases hnoop' : r'.2.IsNoop
    · exact .inr (.inl hnoop')
    refine .inr (.inr fun key hboth => ?_)
    have hv := visits_of_contains hn hlt (le_of_mem_banks h) hr hnoop hboth.1
    have hv' := visits_of_contains hn hlt (le_of_mem_banks h') hr' hnoop' hboth.2
    rw [← hcycle] at hv'
    exact hspans _ ⟨((visits_iff_spans (by omega) heach h _).mp hv).1,
      ((visits_iff_spans (by omega) heach h' _).mp hv').1⟩
  refine pairwise_filterMap.mpr (hall.imp ?_)
  intro r r' happart p hp q hq
  simp only [Option.ite_none_right_eq_some, Option.some.injEq] at hp hq
  rw [← hp.2, ← hq.2]
  exact happart (hp.1.trans hq.1.symm)

/-- A key is in a range of a cycle if the slot with its block is visited. -/
theorem exists_contains_of_visits (hn : 2 ≤ n) (hlt : n < U64) (h : bank ∈ chain.banks)
    (hv : Visits n bank (cycle * n + block n key)) :
    ∃ p ∈ chain.fixedRangesOf n cycle, p.contains key = true := by
  obtain ⟨hdiv, hmod⟩ := slot_div_mod cycle (block_lt (show 0 < n by omega) key)
  obtain ⟨p, hp, hcovers⟩ := hv
  rw [hdiv] at hp
  rw [hmod] at hcovers
  obtain ⟨hvalid, hcount⟩ := fixedRanges_spec (by omega) (le_of_mem_banks h) hp
  dsimp only at hvalid hcount
  obtain ⟨noop, -, hiff⟩ := contains_iff (by omega) (by omega) hvalid
  refine ⟨p, mem_fixedRangesOf.mpr ⟨bank, h, hp⟩, (hiff key).mpr (.inl ?_)⟩
  rw [hcount]
  exact hcovers

/-- **The banks of a chain visit each account once in each cycle exactly if no cycle is entered in
its first slot after the last slot of the cycle before was skipped.**  No assertion fails, and no
two ranges of a cycle have a key in common. -/
theorem fixedCycle_visits_iff (hn : 2 ≤ n) (hlt : n < U64) (heach : chain.EachCycle n) :
    (∀ bank ∈ chain.banks, ∀ p ∈ fixedPartitions n bank.1 bank.2,
      ∃ range, pubkeyRangeFromPartition p = .ok range) ∧
    (∀ cycle, (chain.fixedRangesOf n cycle).Pairwise Partition.Apart) ∧
    ((∀ cycle, chain.Completes n cycle → ∀ key, ∃ p ∈ chain.fixedRangesOf n cycle,
      p.contains key = true) ↔ ∀ cycle, chain.Completes n cycle → (cycle + 1) * n ∈ chain.slots →
        (cycle + 1) * n - 1 ∈ chain.slots) := by
  refine ⟨fun bank h p hp => ?_, fixedRangesOf_apart hn hlt heach,
    fun hall cycle hcomplete hfirst => ?_,
    fun hskip cycle hcomplete key => ?_⟩
  · exact pubkeyRangeFromPartition_returns
      (fixedPartitions_valid (by omega) (le_of_mem_banks h) p hp)
  · -- The last block of the cycle is visited by the bank in its last slot.
    obtain ⟨p, hp, hkey⟩ := hall cycle hcomplete (keyOf n (n - 1))
    obtain ⟨bank, h, hr⟩ := mem_fixedRangesOf.mp hp
    obtain ⟨hvalid, hcount⟩ := fixedRanges_spec (by omega) (le_of_mem_banks h) hr
    rw [← hcount, contains_keyOf (by omega) (by omega) hvalid (by omega), hcount] at hkey
    obtain ⟨hdiv, hmod⟩ := slot_div_mod cycle (show n - 1 < n by omega)
    have hv : Visits n bank (cycle * n + (n - 1)) := ⟨p, by rwa [hdiv], by rwa [hmod]⟩
    obtain ⟨hspans, hzero⟩ := (visits_iff_spans (by omega) heach h _).mp hv
    have hmul : (cycle + 1) * n = cycle * n + n := Nat.succ_mul cycle n
    have hlast : bank.2 = cycle * n + (n - 1) := by
      by_contra hne
      obtain ⟨hle, hparent⟩ := hspans
      have hnext := slot_of_spans h ⟨by omega, .inl (by omega)⟩ hfirst
      have := hzero (by rw [hnext]; exact Nat.mul_mod_left _ _)
      omega
    rcases mem_banks h with ⟨-, rfl⟩ | ⟨-, -, hmem⟩
    · omega
    · rwa [show (cycle + 1) * n - 1 = bank.2 by omega]
  · have hblock := block_lt (show 0 < n by omega) key
    have hreach : chain.Reaches (cycle * n + block n key) := by
      obtain ⟨⟨hstart, -⟩, -, bank, h, hle⟩ := hcomplete
      exact ⟨hstart.imp (fun h => by omega) id, bank, h, by omega⟩
    obtain ⟨bank, h, hspans⟩ := exists_spans hreach
    refine exists_contains_of_visits hn hlt h
      ((visits_iff_spans (by omega) heach h _).mpr ⟨hspans, ?_⟩)
    intro hzero
    by_contra hne
    obtain ⟨hle, hparent⟩ := hspans
    have hparent : bank.1 < cycle * n + block n key := hparent.resolve_right (by omega)
    -- The bank is in the first slot of the next cycle.
    have hnext : bank.2 = (cycle + 1) * n := by
      have hq := cycle_le_succ (by omega) heach h
      have hdiv : bank.1 / n ≤ cycle := by
        rw [← (slot_div_mod cycle hblock).1]
        exact Nat.div_le_div_right hparent.le
      have heq := Nat.div_add_mod bank.2 n
      rw [hzero, Nat.add_zero, Nat.mul_comm] at heq
      rcases Nat.lt_or_ge (bank.2 / n) (cycle + 1) with hlt' | hge
      · have := Nat.mul_le_mul_right n (show bank.2 / n ≤ cycle by omega)
        omega
      · rw [← heq, show bank.2 / n = cycle + 1 by omega]
    have hmem : bank.2 ∈ chain.slots := by
      rcases mem_banks h with ⟨-, rfl⟩ | ⟨-, -, hmem⟩
      · omega
      · exact hmem
    have hlast := hskip cycle hcomplete (hnext ▸ hmem)
    have := slot_of_spans h ⟨by omega, .inl (by omega)⟩ hlast
    omega

/-- Two cycles of five slots, without the slots 3, 6 and 7. -/
def gappedChain : BankChain := fromGenesis [1, 2, 4, 5, 8, 9, 10] (by decide)

theorem fixedCycle_visits_gappedChain :
    gappedChain.EachCycle 5 ∧ (∀ cycle, gappedChain.Completes 5 cycle → ∀ key,
      ∃ p ∈ gappedChain.fixedRangesOf 5 cycle, p.contains key = true) := by
  have heach : gappedChain.EachCycle 5 := by
    rintro k hk ⟨s, hs, hle⟩
    simp only [gappedChain, fromGenesis, mem_cons, not_mem_nil, or_false] at hs ⊢ hk
    refine ⟨k * 5, by omega, by omega⟩
  refine ⟨heach, (fixedCycle_visits_iff (by decide) (by decide) heach).2.2.mpr ?_⟩
  intro cycle _ hfirst
  simp only [gappedChain, fromGenesis, mem_cons, not_mem_nil, or_false] at hfirst ⊢
  omega

/-- A chain that skips the last slot of a cycle of ten slots. -/
def skippingChain : BankChain := fromGenesis [8, 10] (by decide)

/-- **The accounts of the skipped slot are not visited in the cycle.** -/
theorem skippingChain_misses :
    skippingChain.EachCycle 10 ∧ skippingChain.Completes 10 0 ∧
      ∀ p ∈ skippingChain.fixedRangesOf 10 0, p.contains (keyOf 10 9) = false := by
  refine ⟨?_, ⟨⟨.inr rfl, (8, 10), ?_, ?_⟩, .inr rfl, (8, 10), ?_, ?_⟩, ?_⟩
  · rintro k hk ⟨s, hs, hle⟩
    simp only [skippingChain, fromGenesis, mem_cons, not_mem_nil, or_false] at hs ⊢ hk
    exact ⟨10, .inr rfl, by rcases hs with rfl | rfl <;> omega⟩
  all_goals decide +kernel

end BankChain

end Panoptes.Runtime
