import Panoptes.Lib.Bytes
import Panoptes.Sdk.Clock

/-!
# Derived addresses

`sdk/program/src/pubkey.rs`: addresses that no key pair belongs to.  `create_with_seed` hashes a
base key, a seed and an owner; `create_program_address` hashes a list of seeds, a program id and a
fixed text, and refuses what lies on the curve.  Neither writes a delimiter between the pieces.

The hash and the curve test are parameters.  The hash goes to a type of its own: a hash that is
injective on all byte strings cannot have 32-byte values.

* `createWithSeed`, `createProgramAddress` — the two derivations.
* `programId_eq_of_address` — a program address determines its program id, since what is hashed
  after the seeds has a fixed length.
* `suffix_of_addresses` — a seeded address that is also a program address has an owner that ends
  with the fixed text.
* `exists_programAddress` — and every such owner gives one, for each base and seed.
-/

set_option autoImplicit false

namespace Panoptes.Sdk

open Lib List

def MAX_SEED_LEN : Nat := 32
def MAX_SEEDS : Nat := 16

inductive PubkeyError where
  | maxSeedLengthExceeded
  | invalidSeeds
  deriving DecidableEq, Repr

/-- `pubkey.as_ref()`: the most significant byte comes first. -/
def pubkeyBytes (key : Pubkey) : List UInt8 := (leBytes 32 key.toNat).reverse

/-- `Pubkey::new`. -/
def pubkeyOfBytes (bytes : List UInt8) : Pubkey := BitVec.ofNat 256 (leNat bytes.reverse)

/-- `seed.as_ref()`. -/
def strBytes (seed : String) : List UInt8 := seed.toByteArray.data.toList

/-- `"ProgramDerivedAddress".as_ref()`. -/
def programDerivedAddressMarker : List UInt8 :=
  [80, 114, 111, 103, 114, 97, 109, 68, 101, 114, 105, 118, 101, 100, 65, 100, 100,
    114, 101, 115, 115]

section Derivation

variable {η : Type} (hash : List UInt8 → η) (onCurve : η → Bool)

def createWithSeed (base : Pubkey) (seed : String) (owner : Pubkey) : Except PubkeyError η :=
  if (strBytes seed).length > MAX_SEED_LEN then .error .maxSeedLengthExceeded
  else .ok (hash (pubkeyBytes base ++ strBytes seed ++ pubkeyBytes owner))

def createProgramAddress (seeds : List (List UInt8)) (programId : Pubkey) : Except PubkeyError η :=
  if seeds.length > MAX_SEEDS then .error .maxSeedLengthExceeded
  else if seeds.any fun seed => decide (seed.length > MAX_SEED_LEN) then
    .error .maxSeedLengthExceeded
  else
    let address := hash (seeds.flatten ++ (pubkeyBytes programId ++ programDerivedAddressMarker))
    if onCurve address then .error .invalidSeeds else .ok address

end Derivation

/-! ## The bytes of a key -/

@[simp] theorem length_pubkeyBytes (key : Pubkey) :
    (pubkeyBytes key).length = 32 := by simp [pubkeyBytes]

theorem pubkeyOfBytes_pubkeyBytes (key : Pubkey) : pubkeyOfBytes (pubkeyBytes key) = key := by
  unfold pubkeyOfBytes pubkeyBytes
  rw [reverse_reverse, leNat_leBytes (bitVec_toNat_lt (w := 32) key), BitVec.ofNat_toNat,
    BitVec.setWidth_eq]

theorem pubkeyBytes_injective : Function.Injective pubkeyBytes :=
  Function.LeftInverse.injective pubkeyOfBytes_pubkeyBytes

theorem pubkeyBytes_pubkeyOfBytes {bytes : List UInt8} (h : bytes.length = 32) :
    pubkeyBytes (pubkeyOfBytes bytes) = bytes := by
  have hlt : leNat bytes.reverse < 2 ^ 256 := by
    have := leNat_lt bytes.reverse
    rwa [length_reverse, h] at this
  unfold pubkeyBytes pubkeyOfBytes
  rw [BitVec.toNat_ofNat, Nat.mod_eq_of_lt hlt]
  have hback := leBytes_leNat bytes.reverse
  rw [length_reverse, h] at hback
  rw [hback, reverse_reverse]

/-! ## What a derived address determines -/

section Separation

variable {η : Type} {hash : List UInt8 → η} {onCurve : η → Bool} {base owner programId : Pubkey}
  {seed : String} {address : η} {seeds : List (List UInt8)}

theorem createWithSeed_eq_ok :
    createWithSeed hash base seed owner = .ok address ↔
      (strBytes seed).length ≤ MAX_SEED_LEN
        ∧ hash (pubkeyBytes base ++ strBytes seed ++ pubkeyBytes owner) = address := by
  unfold createWithSeed
  by_cases hlen : (strBytes seed).length > MAX_SEED_LEN
  · rw [if_pos hlen]
    exact ⟨(nomatch ·), fun h => absurd h.1 (Nat.not_le.mpr hlen)⟩
  · rw [if_neg hlen]
    exact ⟨fun h => ⟨Nat.not_lt.mp hlen, Except.ok.inj h⟩, fun h => congrArg Except.ok h.2⟩

theorem createProgramAddress_eq_ok :
    createProgramAddress hash onCurve seeds programId = .ok address ↔
      seeds.length ≤ MAX_SEEDS ∧ (∀ seed ∈ seeds, seed.length ≤ MAX_SEED_LEN)
        ∧ hash (seeds.flatten ++ (pubkeyBytes programId ++ programDerivedAddressMarker)) = address
        ∧ onCurve address = false := by
  unfold createProgramAddress
  by_cases hcount : seeds.length > MAX_SEEDS
  · rw [if_pos hcount]
    exact ⟨(nomatch ·), fun h => absurd h.1 (Nat.not_le.mpr hcount)⟩
  rw [if_neg hcount]
  by_cases hlen : (seeds.any fun seed => decide (seed.length > MAX_SEED_LEN)) = true
  · rw [if_pos hlen]
    obtain ⟨seed, hseed, hlong⟩ := any_eq_true.mp hlen
    exact ⟨(nomatch ·),
      fun h => absurd (h.2.1 seed hseed) (Nat.not_le.mpr (of_decide_eq_true hlong))⟩
  rw [if_neg hlen]
  have hshort : ∀ seed ∈ seeds, seed.length ≤ MAX_SEED_LEN := by
    intro seed hseed
    by_contra hlong
    exact hlen (any_eq_true.mpr ⟨seed, hseed, decide_eq_true (Nat.not_le.mp hlong)⟩)
  dsimp only
  split
  · rename_i hcurve
    refine ⟨(nomatch ·), fun ⟨_, _, haddress, hoff⟩ => ?_⟩
    rw [haddress, hoff] at hcurve
    cases hcurve
  · rename_i hoff
    refine ⟨fun h => ?_, fun h => congrArg Except.ok h.2.2.1⟩
    cases h
    exact ⟨Nat.not_lt.mp hcount, hshort, rfl, Bool.eq_false_iff.mpr hoff⟩

/-- What is hashed after the seeds has a fixed length, so it can be read off the end. -/
theorem programId_eq_of_address (hinj : Function.Injective hash) {seeds₁ seeds₂ : List (List UInt8)}
    {programId₁ programId₂ : Pubkey}
    (h₁ : createProgramAddress hash onCurve seeds₁ programId₁ = .ok address)
    (h₂ : createProgramAddress hash onCurve seeds₂ programId₂ = .ok address) :
    programId₁ = programId₂ := by
  obtain ⟨-, -, h₁, -⟩ := createProgramAddress_eq_ok.mp h₁
  obtain ⟨-, -, h₂, -⟩ := createProgramAddress_eq_ok.mp h₂
  obtain ⟨-, htail⟩ := append_inj' (hinj (h₁.trans h₂.symm)) (by simp)
  exact pubkeyBytes_injective (append_inj_left htail (by simp))

/-- The owner comes last in a seeded address and is longer than the text a program address ends
with. -/
theorem suffix_of_addresses (hinj : Function.Injective hash)
    (hseeded : createWithSeed hash base seed owner = .ok address)
    (hprogram : createProgramAddress hash onCurve seeds programId = .ok address) :
    programDerivedAddressMarker <:+ pubkeyBytes owner ∧ onCurve address = false := by
  obtain ⟨-, hseeded⟩ := createWithSeed_eq_ok.mp hseeded
  obtain ⟨-, -, hprogram, hoff⟩ := createProgramAddress_eq_ok.mp hprogram
  have hbytes := hinj (hseeded.trans hprogram.symm)
  have howner : pubkeyBytes owner <:+ pubkeyBytes base ++ strBytes seed ++ pubkeyBytes owner :=
    suffix_append _ _
  have hmarker : programDerivedAddressMarker <:+ pubkeyBytes base ++ strBytes seed ++
      pubkeyBytes owner := by
    rw [hbytes, ← append_assoc]
    exact suffix_append _ _
  refine ⟨suffix_of_suffix_length_le hmarker howner ?_, hoff⟩
  rw [length_pubkeyBytes]
  decide

/-- An owner that ends with the text leaves 43 bytes or more before it: the last 32 are read as a
program id, and two seeds hold the rest. -/
theorem exists_programAddress (hseeded : createWithSeed hash base seed owner = .ok address)
    (hmarker : programDerivedAddressMarker <:+ pubkeyBytes owner) (hoff : onCurve address = false) :
    ∃ seeds programId, createProgramAddress hash onCurve seeds programId = .ok address := by
  obtain ⟨hlen, hseeded⟩ := createWithSeed_eq_ok.mp hseeded
  obtain ⟨front, hfront⟩ := hmarker
  have hfrontLen : front.length = 11 := by
    have := congrArg List.length hfront
    rw [length_append, length_pubkeyBytes] at this
    have : programDerivedAddressMarker.length = 21 := rfl
    omega
  set bytes := pubkeyBytes base ++ strBytes seed ++ front with hbytes
  have hbytesLen : bytes.length = 43 + (strBytes seed).length := by
    simp only [hbytes, length_append, length_pubkeyBytes]
    omega
  set programId := bytes.drop (11 + (strBytes seed).length) with hprogramId
  have hidLen : programId.length = 32 := by
    rw [length_drop]
    omega
  set rest := bytes.take (11 + (strBytes seed).length) with hrest
  have hrestLen : rest.length ≤ 43 := by
    rw [length_take]
    unfold MAX_SEED_LEN at hlen
    omega
  refine ⟨chunks 32 rest, pubkeyOfBytes programId,
    createProgramAddress_eq_ok.mpr ⟨?_, ?_, ?_, hoff⟩⟩
  · rw [length_chunks]
    unfold MAX_SEEDS
    omega
  · intro chunk hchunk
    obtain ⟨i, hi, rfl⟩ := getElem_of_mem hchunk
    rw [getElem_chunks, length_take]
    exact Nat.min_le_left ..
  · rw [flatten_chunks (by omega), pubkeyBytes_pubkeyOfBytes hidLen, ← append_assoc,
      take_append_drop, ← hseeded, ← hfront, append_assoc _ front]

/-- **Derived addresses of different kinds and programs**: two programs never share an address, and
a seeded address is nobody's program address exactly if its owner does not end with the text of
program addresses, or the hash of base, seed and owner lies on the curve. -/
theorem derivedAddresses_separate_iff (hinj : Function.Injective hash) :
    (∀ base seed owner address, createWithSeed hash base seed owner = .ok address →
      ((∀ seeds programId, createProgramAddress hash onCurve seeds programId ≠ .ok address) ↔
        ¬ (programDerivedAddressMarker <:+ pubkeyBytes owner ∧
          onCurve (hash (pubkeyBytes base ++ strBytes seed ++ pubkeyBytes owner)) = false)))
      ∧ ∀ seeds₁ seeds₂ programId₁ programId₂ address₁ address₂, programId₁ ≠ programId₂ →
        createProgramAddress hash onCurve seeds₁ programId₁ = .ok address₁ →
        createProgramAddress hash onCurve seeds₂ programId₂ = .ok address₂ →
          address₁ ≠ address₂ := by
  refine ⟨fun base seed owner address hseeded => ?_,
    fun seeds₁ seeds₂ programId₁ programId₂ address₁ address₂ hne h₁ h₂ heq => ?_⟩
  · rw [(createWithSeed_eq_ok.mp hseeded).2]
    refine ⟨fun hne ⟨hmarker, hoff⟩ => ?_, fun hcond seeds programId hprogram => ?_⟩
    · obtain ⟨seeds, programId, hprogram⟩ := exists_programAddress hseeded hmarker hoff
      exact hne seeds programId hprogram
    · exact hcond (suffix_of_addresses hinj hseeded hprogram)
  · exact hne (programId_eq_of_address hinj (heq ▸ h₁) h₂)

/-- The derivations with the bytes themselves for the hash, and every value off the curve. -/
theorem derivedAddresses_separate_iff_of_bytes :
    Function.Injective (id : List UInt8 → List UInt8) ∧
    createWithSeed id 1 "seed" 0 = .ok (pubkeyBytes 1 ++ strBytes "seed" ++ pubkeyBytes 0) ∧
    ∀ seeds programId, createProgramAddress id (fun _ => false) seeds programId
      ≠ .ok (pubkeyBytes 1 ++ strBytes "seed" ++ pubkeyBytes 0) := by
  have hseeded : createWithSeed id 1 "seed" 0 =
      .ok (pubkeyBytes 1 ++ strBytes "seed" ++ pubkeyBytes 0) := by decide +kernel
  have howner : ¬ programDerivedAddressMarker <:+ pubkeyBytes 0 := by decide +kernel
  refine ⟨Function.injective_id, hseeded, ?_⟩
  exact ((derivedAddresses_separate_iff Function.injective_id).1 1 "seed" 0 _ hseeded).mpr
    fun h => howner h.1

/-- An owner of eleven zero bytes and the text. -/
def markedOwner : Pubkey := pubkeyOfBytes (List.replicate 11 0 ++ programDerivedAddressMarker)

/-- Base 1 and the seed "g" give that owner the address that a program derives from the first 12
bytes of the base, if it is off the curve; the id of the program is the rest of the base, the seed
and the zeros. -/
theorem createWithSeed_eq_programAddress :
    programDerivedAddressMarker <:+ pubkeyBytes markedOwner ∧
    ∀ (η : Type) (hash : List UInt8 → η) (onCurve : η → Bool),
      onCurve (hash (pubkeyBytes 1 ++ strBytes "g" ++ pubkeyBytes markedOwner)) = false →
      ∃ address, createWithSeed hash 1 "g" markedOwner = .ok address ∧
        createProgramAddress hash onCurve [(pubkeyBytes 1).take 12]
          (pubkeyOfBytes ((pubkeyBytes 1).drop 12 ++ strBytes "g" ++ List.replicate 11 0)) =
            .ok address := by
  refine ⟨by decide +kernel, fun η hash onCurve hoff =>
    ⟨_, createWithSeed_eq_ok.mpr ⟨by decide +kernel, rfl⟩,
    createProgramAddress_eq_ok.mpr ⟨by decide, by decide +kernel, congrArg hash ?_, hoff⟩⟩⟩
  decide +kernel

end Separation

end Panoptes.Sdk
