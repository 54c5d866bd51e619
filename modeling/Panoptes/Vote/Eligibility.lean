import Panoptes.Sdk.Clock

/-!
# Voter eligibility

Not every authorized voter may vote on every slot: `process_vote` of the vote program rejects the
others, and `ReplayStage::push_vote` of the validator does not send their votes.  The rule is
written out in both places, over the last characters of the base58 strings of a key and of a hash.

* `Base58` — `bs58::encode`, of which only that its strings are not empty is used.
* `slotRule` — the rule after the cut-over; `findRule` — the one before it.
* `processVoteEligible`, `pushVoteEligible` — the two places that apply them.

Principal results: `processVoteEligible_ok_iff`, the test of the program aborts exactly on an empty
list of slot hashes, and `eligibility_agrees_iff`, after the cut-over the two tests agree on all
later slots for the exempt key only.
-/

set_option autoImplicit false

namespace Panoptes.VoteProgram

open Lib Sdk

/-- `bs58::encode(bytes).into_string()` on 32 bytes: never empty. -/
structure Base58 where
  encode : BitVec 256 → String
  encode_ne : ∀ b, (encode b).toList ≠ []

/-- The key that may always vote. -/
def EXEMPT_VOTER : String := "83E5RMejo6d98FV1EAXTx5t4bvoDMoxE4DboDee3VJsu"

/-- The time from which the rule on slots applies. -/
def CUT_OVER : Int := 1626222605

variable (b58 : Base58)

/-- `b.to_string().chars().last().unwrap() as usize`. -/
def lastChar (b : BitVec 256) : Except Panic Nat := do
  let c ← unwrap (b58.encode b).toList.getLast?
  .ok c.toNat

/-- `b.to_string().to_lowercase().find("x")`; base58 strings are ASCII. -/
def findX (b : BitVec 256) : Option Nat :=
  ((b58.encode b).toList.map Char.toLower).findIdx? fun c => c == 'x'

/-- The last digit the slot must have, for the sum of the last characters of the two strings. -/
def slotDigit (slot chars : Nat) : Nat := ((slot % 9 + 1) * chars / 10 + chars) % 10

/-- The rule after the cut-over. -/
def slotRule (slot : Nat) (voter : Pubkey) (hash : Hash) : Except Panic Bool := do
  let p ← lastChar b58 voter
  let h ← lastChar b58 hash
  .ok (decide (slot % 10 = slotDigit slot (p + h)) || decide (b58.encode voter = EXEMPT_VOTER))

/-- The rule before the cut-over. -/
def findRule (voter : Pubkey) (hash : Hash) : Bool :=
  decide ((findX b58 hash).getD 3 % 10 = (findX b58 voter).getD 2 % 10) ||
    decide (b58.encode voter = EXEMPT_VOTER)

def processVoteEligible (clock : Clock) (slotHashes : List SlotHash) (voter : Pubkey) :
    Except Panic Bool := do
  let slotHash ← index slotHashes 0
  if clock.unixTimestamp > CUT_OVER then slotRule b58 clock.slot voter slotHash.2
  else .ok (findRule b58 voter slotHash.2)

/-- The test of `push_vote`, at a local time in milliseconds. -/
def pushVoteEligible (nowMillis : Int) (slot : Nat) (voter : Pubkey) (hash : Hash) :
    Except Panic Bool :=
  if nowMillis > CUT_OVER * 1000 then slotRule b58 slot voter hash
  else .ok (findRule b58 voter hash)

variable {b58}

/-! ## The tests do not abort -/

theorem lastChar_ok (b : BitVec 256) : ∃ c, lastChar b58 b = .ok c := by
  have hlast := List.getLast?_eq_some_getLast (b58.encode_ne b)
  exact ⟨_, by rw [lastChar, hlast]; rfl⟩

/-- The value of the rule, for the sum of the last characters. -/
theorem slotRule_ok (voter : Pubkey) (hash : Hash) :
    ∃ chars, ∀ slot, slotRule b58 slot voter hash =
      .ok (decide (slot % 10 = slotDigit slot chars) ||
        decide (b58.encode voter = EXEMPT_VOTER)) := by
  obtain ⟨p, hp⟩ := @lastChar_ok b58 voter
  obtain ⟨h, hh⟩ := @lastChar_ok b58 hash
  refine ⟨p + h, fun slot => ?_⟩
  simp only [slotRule, hp, hh, bind, Except.bind]

/-- **The test of the program aborts exactly on an empty list of slot hashes.** -/
theorem processVoteEligible_ok_iff (clock : Clock) (slotHashes : List SlotHash) (voter : Pubkey) :
    (∃ b, processVoteEligible b58 clock slotHashes voter = .ok b) ↔ slotHashes ≠ [] := by
  cases slotHashes with
  | nil => simp [processVoteEligible, index, bind, Except.bind]
  | cons slotHash rest =>
    simp only [processVoteEligible, index, List.getElem?_cons_zero, ne_eq,
      reduceCtorEq, not_false_eq_true, iff_true]
    split
    · obtain ⟨chars, hrule⟩ := @slotRule_ok b58 voter slotHash.2
      exact ⟨_, hrule clock.slot⟩
    · exact ⟨_, rfl⟩

/-! ## The two tests -/

/-- Before the cut-over the two tests are the same. -/
theorem eligibility_agrees_before {nowMillis : Int} {clock : Clock} {n : Nat} {hash : Hash}
    {slotHashes : List SlotHash} (voter : Pubkey) (hnow : nowMillis ≤ CUT_OVER * 1000)
    (hclock : clock.unixTimestamp ≤ CUT_OVER) :
    pushVoteEligible b58 nowMillis n voter hash =
      processVoteEligible b58 clock ((n, hash) :: slotHashes) voter := by
  unfold pushVoteEligible processVoteEligible
  rw [if_neg (not_lt.mpr hnow)]
  simp only [index, List.getElem?_cons_zero, bind, Except.bind]
  rw [if_neg (not_lt.mpr hclock)]

/-- With the residue modulo 9 fixed, every last digit occurs among the later slots. -/
theorem exists_slot_digit (n chars d : Nat) (hd : d < 10) :
    ∃ m, n < m ∧ m < n + 900 ∧ slotDigit m chars = slotDigit 0 chars ∧ m % 10 = d := by
  refine ⟨90 * (n / 90 + 1) + 81 * d, by omega, by omega, ?_, by omega⟩
  have h9 : (90 * (n / 90 + 1) + 81 * d) % 9 = 0 := by omega
  simp [slotDigit, h9]

/-- **When the two tests agree.**  After the cut-over the validator tests the slot it votes on and
the program the slot in which the vote lands.  For a given voter, slot and hash the answers are the
same at every later slot if and only if the voter is the exempt one.  Slots are below `2^64`, and
`n` is not among the last. -/
theorem eligibility_agrees_iff (b58 : Base58) (voter : Pubkey) (n : Nat) (hash : Hash)
    {nowMillis : Int} (hnow : nowMillis > CUT_OVER * 1000) (hlater : n + 900 ≤ U64) :
    (∀ (clock : Clock) (slotHashes : List SlotHash), clock.unixTimestamp > CUT_OVER →
      n < clock.slot → clock.slot < U64 → (pushVoteEligible b58 nowMillis n voter hash = .ok true ↔
        processVoteEligible b58 clock ((n, hash) :: slotHashes) voter = .ok true)) ↔
    b58.encode voter = EXEMPT_VOTER := by
  obtain ⟨chars, hrule⟩ := @slotRule_ok b58 voter hash
  have hpush : pushVoteEligible b58 nowMillis n voter hash = .ok true ↔
      n % 10 = slotDigit n chars ∨ b58.encode voter = EXEMPT_VOTER := by
    rw [pushVoteEligible, if_pos hnow, hrule]
    simp
  have hprocess : ∀ (clock : Clock) (slotHashes : List SlotHash), clock.unixTimestamp > CUT_OVER →
      (processVoteEligible b58 clock ((n, hash) :: slotHashes) voter = .ok true ↔
        clock.slot % 10 = slotDigit clock.slot chars ∨ b58.encode voter = EXEMPT_VOTER) := by
    intro clock slotHashes hclock
    simp only [processVoteEligible, index, List.getElem?_cons_zero, bind, Except.bind]
    rw [if_pos hclock, hrule]
    simp
  constructor
  · intro hagree
    by_contra hne
    -- a later slot with the digit the rule asks for, and one with another digit
    have hlt : slotDigit 0 chars < 10 := Nat.mod_lt _ (by decide)
    obtain ⟨m, hm, hbound, hdigit, hmod⟩ := exists_slot_digit n chars (slotDigit 0 chars) hlt
    obtain ⟨m', hm', hbound', hdigit', hmod'⟩ :=
      exists_slot_digit n chars ((slotDigit 0 chars + 1) % 10) (Nat.mod_lt _ (by decide))
    have hlate : CUT_OVER + 1 > CUT_OVER := by decide
    have h₁ :=
      hagree ⟨m, 0, 0, CUT_OVER + 1, Nat.le_refl 0, by decide⟩ [] hlate hm (hbound.trans_le hlater)
    have h₂ :=
      hagree ⟨m', 0, 0, CUT_OVER + 1, Nat.le_refl 0, by decide⟩ [] hlate hm'
        (hbound'.trans_le hlater)
    rw [hpush, hprocess _ _ hlate] at h₁ h₂
    simp only [hne, or_false] at h₁ h₂
    omega
  · intro hexempt clock slotHashes hclock _ _
    rw [hpush, hprocess clock slotHashes hclock]
    simp [hexempt]

/-- Base58 on the key and the hash of all zeros, whose strings are 32 ones. -/
def zeroBase58 : Base58 := ⟨fun _ => "11111111111111111111111111111111", fun _ => by decide⟩

theorem eligibility_agrees_iff_zero :
    CUT_OVER * 1000 + 1 > CUT_OVER * 1000 ∧
    ¬ ∀ (clock : Clock) (slotHashes : List SlotHash), clock.unixTimestamp > CUT_OVER →
      7 < clock.slot →
      clock.slot < U64 → (pushVoteEligible zeroBase58 (CUT_OVER * 1000 + 1) 7 0 0 = .ok true ↔
        processVoteEligible zeroBase58 clock ((7, 0) :: slotHashes) 0 = .ok true) :=
  ⟨by decide,
    fun h =>
      absurd ((eligibility_agrees_iff zeroBase58 0 7 0 (by decide) (by decide)).mp h) (by decide)⟩

/-- A vote on slot 6 is sent, and rejected in the child bank at slot 7. -/
theorem eligibility_disagrees :
    ¬ (pushVoteEligible zeroBase58 (CUT_OVER * 1000 + 1) 6 0 0 = .ok true ↔
      processVoteEligible zeroBase58 ⟨7, 0, 0, CUT_OVER + 1, Nat.le_refl 0, by decide⟩ [(6, 0)] 0 =
        .ok true) := by
  have hpush : pushVoteEligible zeroBase58 (CUT_OVER * 1000 + 1) 6 0 0 = .ok true := by decide
  intro h
  have := h.mp hpush
  cases this

end Panoptes.VoteProgram
