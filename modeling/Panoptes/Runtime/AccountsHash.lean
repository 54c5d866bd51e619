import Panoptes.Lib.Bytes
import Panoptes.Sdk.Pubkey

/-!
# The accounts hash

`compute_merkle_root` and `accumulate_account_hashes` of `runtime/src/accounts_db.rs`: the hashes of
the accounts, in the order of their keys, are the leaves of a tree of fanout 16 whose levels are not
tagged.

* `up` — the level above a level; `hashed` — the lists of hashes that are hashed on the way to a
  root.
* `Above` — the levels from a root down.  Without collisions a level has one level below it, so that
  of two lists with one root one is a level above the other.

Principal result: `accumulateAccountHashes_eq_iff`.
-/

set_option autoImplicit false

namespace Panoptes.Runtime

open Lib Sdk List Relation

section Model

variable (hasher : List UInt8 → Hash)

/-- The bytes that a `Hasher` is given for some hashes. -/
def hashesBytes (hashes : List Hash) : List UInt8 := hashes.flatMap pubkeyBytes

def hashAll (hashes : List Hash) : Hash := hasher (hashesBytes hashes)

theorem length_chunks_lt {α : Type} {fanout : Nat} (hf : 1 < fanout) {xs : List α}
    (h : 1 < xs.length) : (chunks fanout xs).length < xs.length := by
  rw [length_chunks, Nat.div_lt_iff_lt_mul (by omega)]
  have := Nat.add_le_mul h hf
  omega

/-- The loop of `compute_merkle_root`. -/
def merkleLevels (fanout : Nat) (hf : 1 < fanout) (hashes : List (List Hash)) : List (List Hash) :=
  if 1 < hashes.length then merkleLevels fanout hf (chunks fanout (hashes.map (hashAll hasher)))
    else hashes
termination_by hashes.length
decreasing_by simpa using @length_chunks_lt _ _ hf (hashes.map (hashAll hasher)) (by simpa)

def computeMerkleRoot (hashes : List (Pubkey × Hash × Nat)) (fanout : Nat)
    (hf : 1 < fanout) : Hash :=
  hashAll hasher (merkleLevels hasher fanout hf (chunks fanout (hashes.map (·.2.1)))).flatten

/-- The sum is a `u128`. -/
def checkedSumForCapitalization (balances : List Nat) : Except Panic Nat :=
  if balances.sum % 2 ^ 128 < U64 then .ok (balances.sum % 2 ^ 128)
  else .error (.expect "overflow is detected while summing capitalization")

def sortByPubkey (hashes : List (Pubkey × Hash × Nat)) : List (Pubkey × Hash × Nat) :=
  hashes.insertionSort fun a b => a.1 ≤ b.1

def doAccumulateAccountHashesAndCapitalization (hashes : List (Pubkey × Hash × Nat))
    (calculateCap : Bool) : Except Panic (Hash × Option Nat) := do
  let hashes := sortByPubkey hashes
  let cap ←
    if calculateCap then (checkedSumForCapitalization (hashes.map (·.2.2))).map some else .ok none
  .ok (computeMerkleRoot hasher hashes 16 (by decide), cap)

def accumulateAccountHashes (hashes : List (Pubkey × Hash × Nat)) : Except Panic Hash := do
  let (hash, _) ← doAccumulateAccountHashesAndCapitalization hasher hashes false
  .ok hash

def accumulateAccountHashesAndCapitalization (hashes : List (Pubkey × Hash × Nat)) :
    Except Panic (Hash × Nat) := do
  let (hash, cap) ← doAccumulateAccountHashesAndCapitalization hasher hashes true
  let cap ← unwrap cap
  .ok (hash, cap)

/-! ## Levels -/

/-- The level above a level. -/
def up (level : List Hash) : List Hash := (chunks 16 level).map (hashAll hasher)

theorem length_up_lt {level : List Hash} (h : 16 < level.length) :
    (up hasher level).length < level.length := by
  rw [up, length_map]
  exact length_chunks_lt (by decide) (by omega)

/-- The lists of hashes that are hashed for the root over a level. -/
def hashed (level : List Hash) : List (List Hash) :=
  if 16 < level.length then chunks 16 level ++ hashed (up hasher level) else [level]
termination_by level.length
decreasing_by exact length_up_lt hasher ‹_›

/-- The root over a level. -/
def rootOf (level : List Hash) : Hash :=
  if 16 < level.length then rootOf (up hasher level) else hashAll hasher level
termination_by level.length
decreasing_by exact length_up_lt hasher ‹_›

end Model

variable {hasher : List UInt8 → Hash} {level level' top : List Hash} {S : List (List Hash)}

theorem computeMerkleRoot_eq (hashes : List (Pubkey × Hash × Nat)) :
    computeMerkleRoot hasher hashes 16 (by decide) = rootOf hasher (hashes.map (·.2.1)) := by
  unfold computeMerkleRoot
  generalize hashes.map (·.2.1) = level
  fun_induction rootOf hasher level with
  | case1 level h ih =>
    have hmany : 1 < (chunks 16 level).length := by rw [length_chunks]; omega
    rw [merkleLevels, if_pos hmany]
    exact ih
  | case2 level h =>
    have hone : ¬ 1 < (chunks 16 level).length := by rw [length_chunks]; omega
    rw [merkleLevels, if_neg hone, flatten_chunks (by decide)]

theorem hashesBytes_injective : Function.Injective hashesBytes := by
  intro level level' h
  induction level generalizing level' with
  | nil =>
    cases level' with
    | nil => rfl
    | cons a level' =>
      have hlen := congrArg length h
      simp [hashesBytes] at hlen
      omega
  | cons a level ih =>
    cases level' with
    | nil =>
      have hlen := congrArg length h
      simp [hashesBytes] at hlen
    | cons b level' =>
      obtain ⟨hhead, htail⟩ := append_inj h (by simp)
      rw [pubkeyBytes_injective hhead, ih htail]

/-- The level `top` stands directly above `level`, and what was hashed for it is in `S`. -/
def Above (hasher : List UInt8 → Hash) (S : List (List Hash)) (top level : List Hash) : Prop :=
  16 < level.length ∧ chunks 16 level ⊆ S ∧ top = up hasher level

/-- **A level determines the level below it.** -/
theorem above_unique (hinj : ∀ a ∈ S, ∀ b ∈ S, hashAll hasher a = hashAll hasher b → a = b) :
    Relator.RightUnique (Above hasher S) := by
  rintro top level level' ⟨-, hS, rfl⟩ ⟨-, hS', heq⟩
  have hchunks : ∀ cs cs' : List (List Hash), cs ⊆ S → cs' ⊆ S →
      cs.map (hashAll hasher) = cs'.map (hashAll hasher) → cs = cs' := by
    intro cs
    induction cs with
    | nil => exact fun cs' _ _ h => (map_eq_nil_iff.mp h.symm).symm
    | cons c cs ih =>
      intro cs' hS hS' h
      obtain ⟨c', cs', rfl, hc, hcs⟩ := map_eq_cons_iff.mp h.symm
      rw [cons_subset] at hS hS'
      rw [hinj c hS.1 c' hS'.1 hc.symm, ih cs' hS.2 hS'.2 hcs.symm]
  rw [← flatten_chunks (n := 16) (by decide) level, hchunks _ _ hS hS' heq,
    flatten_chunks (by decide)]

theorem exists_top (h : hashed hasher level ⊆ S) :
    ∃ top ∈ S, ReflTransGen (Above hasher S) top level ∧
      rootOf hasher level = hashAll hasher top := by
  fun_induction rootOf hasher level with
  | case1 level hlen ih =>
    rw [hashed, if_pos hlen, append_subset] at h
    obtain ⟨top, htop, habove, heq⟩ := ih h.2
    exact ⟨top, htop, habove.tail ⟨hlen, h.1, rfl⟩, heq⟩
  | case2 level hlen =>
    rw [hashed, if_neg hlen] at h
    exact ⟨level, h (mem_singleton_self _), .refl, rfl⟩

/-- A list of which no hash is that of other hashes is no level above another. -/
theorem eq_of_above (hleaf : ∀ hash ∈ top, ∀ c ∈ S, hash ≠ hashAll hasher c)
    (h : ReflTransGen (Above hasher S) top level) : top = level := by
  rcases h.cases_head with rfl | ⟨next, ⟨hlen, hS, rfl⟩, -⟩
  · rfl
  · have hpos : 0 < (chunks 16 next).length := by rw [length_chunks]; omega
    obtain ⟨c, hc⟩ := exists_mem_of_length_pos hpos
    exact absurd rfl (hleaf _ (mem_map_of_mem hc) c (hS hc))

theorem rootOf_injective (hinj : ∀ a ∈ S, ∀ b ∈ S, hashAll hasher a = hashAll hasher b → a = b)
    (hleaf : ∀ hash ∈ level ++ level', ∀ c ∈ S, hash ≠ hashAll hasher c)
    (hS : hashed hasher level ⊆ S)
    (hS' : hashed hasher level' ⊆ S) (h : rootOf hasher level = rootOf hasher level') :
    level = level' := by
  obtain ⟨top, htop, habove, hroot⟩ := exists_top hS
  obtain ⟨top', htop', habove', hroot'⟩ := exists_top hS'
  obtain rfl := hinj top htop top' htop' (hroot.symm.trans (h.trans hroot'))
  simp only [mem_append, or_imp, forall_and] at hleaf
  rcases ReflTransGen.total_of_right_unique (above_unique hinj) habove habove' with hdown | hdown
  · exact eq_of_above hleaf.1 hdown
  · exact (eq_of_above hleaf.2 hdown).symm

/-! ## The accounts -/

/-- The byte strings that are hashed for the accounts hash. -/
def hashedStrings (hasher : List UInt8 → Hash) (hashes : List (Pubkey × Hash × Nat)) :
    List (List UInt8) :=
  (hashed hasher ((sortByPubkey hashes).map (·.2.1))).map hashesBytes

theorem accumulateAccountHashes_eq (hashes : List (Pubkey × Hash × Nat)) :
    accumulateAccountHashes hasher hashes =
      .ok (rootOf hasher ((sortByPubkey hashes).map (·.2.1))) :=
  congrArg Except.ok (computeMerkleRoot_eq _)

/-- **The accounts hash commits to the accounts**, if the hasher has no collision on the strings
that are hashed and no account has the hash of one of them; and the capitalization is the sum of the
lamports. -/
theorem accumulateAccountHashes_eq_iff (hasher : List UInt8 → Hash)
    (l l' : List (Pubkey × Hash × Nat))
    (hinj : ∀ a ∈ hashedStrings hasher l ++ hashedStrings hasher l',
      ∀ b ∈ hashedStrings hasher l ++ hashedStrings hasher l', hasher a = hasher b → a = b)
    (hleaf : ∀ account ∈ l ++ l', ∀ a ∈ hashedStrings hasher l ++ hashedStrings hasher l',
      account.2.1 ≠ hasher a) :
    (accumulateAccountHashes hasher l = accumulateAccountHashes hasher l' ↔
      (sortByPubkey l).map (·.2.1) = (sortByPubkey l').map (·.2.1)) ∧
    ((l.map (·.2.2)).sum < U64 → ∃ hash, accumulateAccountHashes hasher l = .ok hash ∧
      accumulateAccountHashesAndCapitalization hasher l = .ok (hash, (l.map (·.2.2)).sum)) := by
  refine ⟨?_, fun hsum => ⟨_, rfl, ?_⟩⟩
  · rw [accumulateAccountHashes_eq, accumulateAccountHashes_eq, Except.ok.injEq]
    refine ⟨fun h => ?_, fun h => by rw [h]⟩
    unfold hashedStrings at hinj hleaf
    rw [← map_append] at hinj hleaf
    simp only [forall_mem_map] at hinj hleaf
    refine rootOf_injective (fun a ha b hb heq => hashesBytes_injective (hinj a ha b hb heq)) ?_
      (subset_append_left _ _) (subset_append_right _ _) h
    rw [← map_append]
    simp only [forall_mem_map, mem_append, sortByPubkey, mem_insertionSort]
    exact fun account hmem c hc => hleaf account (mem_append.mpr hmem) c (mem_append.mpr hc)
  · have hperm : ((sortByPubkey l).map (·.2.2)).sum = (l.map (·.2.2)).sum :=
      ((perm_insertionSort _ l).map _).sum_eq
    have hmod : (l.map (·.2.2)).sum % 2 ^ 128 = (l.map (·.2.2)).sum := by
      unfold U64 at hsum
      omega
    have hcap : checkedSumForCapitalization ((sortByPubkey l).map (·.2.2)) =
        .ok (l.map (·.2.2)).sum := by
      rw [checkedSumForCapitalization, hperm, hmod, if_pos hsum]
    unfold accumulateAccountHashesAndCapitalization doAccumulateAccountHashesAndCapitalization
    rw [if_pos rfl, hcap]
    rfl

/-- Accounts with the hashes 1 to 17, one more than there are in a node. -/
def seventeen : List (Pubkey × Hash × Nat) :=
  (List.range 17).map fun i => (BitVec.ofNat 256 i, BitVec.ofNat 256 (i + 1), 10)

/-- A tree of two levels and a tree of one. -/
theorem accumulateAccountHashes_eq_iff_seventeen :
    let hasher := fun bytes => BitVec.ofNat 256 (leNat bytes + 100)
    accumulateAccountHashes hasher seventeen ≠ accumulateAccountHashes hasher [(2, 50, 20)] := by
  intro hasher
  rw [ne_eq,
    (accumulateAccountHashes_eq_iff hasher seventeen [(2, 50, 20)] (by decide +kernel)
      (by decide +kernel)).1]
  decide +kernel

end Panoptes.Runtime
