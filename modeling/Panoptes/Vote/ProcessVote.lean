import Panoptes.Vote.Program

/-!
# Processing a vote

`process_vote` of the vote program, on an initialized account and a clock that has not gone back.
The lookup of the authorized voter, the check of the slots and the timestamp return or fail with an
error of the program; the eligibility test reads the first slot hash without looking whether there
is one.

* `getAndUpdateAuthorizedVoter_ok` — the lookup of the voter.
* `processVote_eq` — what is left of a vote once the voter is known.

Principal result: `processVote_returns_iff`, a vote is processed without an abort exactly when there
are slot hashes.
-/

set_option autoImplicit false

namespace Panoptes.VoteProgram

open Lib Sdk AuthorizedVoters

theorem getAndUpdateAuthorizedVoter_ok {vs : VoteState} {epoch : Nat}
    (h : vs.authorizedVoters.Known epoch) :
    ∃ pubkey, vs.authorizedVoters.getAuthorizedVoter epoch = some pubkey ∧
      vs.getAndUpdateAuthorizedVoter epoch = .ok (some pubkey,
        { vs with authorizedVoters := vs.authorizedVoters.updated epoch pubkey }) := by
  obtain ⟨pubkey, hvoter, hupdate⟩ := getAndUpdate_eq h
  exact ⟨pubkey,
    hvoter, by simp [VoteState.getAndUpdateAuthorizedVoter, hupdate, bind, Except.bind]⟩

/-- The first epoch of an initialized account is recorded. -/
theorem known_of_first_le {versioned : VoteStateVersions} {epoch : Nat}
    (hinit : versioned.isUninitialized = false)
    (hfirst : ∀ e pubkey, versioned.convertToCurrent.authorizedVoters.first = some (e, pubkey) →
      e ≤ epoch) :
    versioned.convertToCurrent.authorizedVoters.Known epoch := by
  have hne : versioned.convertToCurrent.authorizedVoters.isEmpty = false := by
    cases versioned with
    | v0235 state =>
      exact @isEmpty_of_contains _ state.authorizedVoterEpoch (by
        simp [VoteStateVersions.convertToCurrent, new, contains])
    | current state => exact hinit
  obtain ⟨⟨⟨e, pubkey⟩, hentry, hcontains⟩, -⟩ := mem_of_not_isEmpty hne
  exact ⟨e, hfirst e pubkey hentry, hcontains⟩

theorem processVoteTimestamp_noPanic (vs : VoteState) (vote : Vote) :
    NoPanic (vs.processVoteTimestamp vote) := by
  unfold VoteState.processVoteTimestamp
  split
  · exact NoPanic.ok _
  · split
    · exact NoPanic.error _
    · exact processTimestamp_noPanic _ _ _

theorem verifyAuthorizedSigner_noPanic (authorized : Pubkey) (signers : Finset Pubkey) :
    NoPanic (verifyAuthorizedSigner authorized signers) := by
  unfold verifyAuthorizedSigner
  split
  · exact NoPanic.ok _
  · exact NoPanic.error _

theorem VoteAccount.store_noPanic {a : VoteAccount} {r : Res InstructionError VoteState} :
    NoPanic (a.store r).1 ↔ NoPanic r := by
  cases r with
  | error fault =>
    cases fault with
    | panic p => exact ⟨fun h => absurd rfl (h p), fun h => absurd rfl (h p)⟩
    | error e => exact ⟨fun _ => NoPanic.error e, fun _ => NoPanic.error e⟩
  | ok vs =>
    refine ⟨fun _ => NoPanic.ok vs, fun _ => ?_⟩
    show NoPanic (a.setState vs).1
    unfold VoteAccount.setState
    split
    · exact NoPanic.error _
    · exact NoPanic.ok _

section

variable {b58 : Base58} {a : VoteAccount} {versioned : VoteStateVersions} {clock : Clock}
  (hdata : a.data = some versioned) (hinit : versioned.isUninitialized = false)
  (slotHashes : List SlotHash)
  (hknown : versioned.convertToCurrent.authorizedVoters.Known clock.epoch) (vote : Vote)
  (signers : Finset Pubkey)
include hdata hinit hknown

/-- A vote on an initialized account, once the authorized voter is known. -/
theorem processVote_eq :
    ∃ voter, versioned.convertToCurrent.authorizedVoters.getAuthorizedVoter clock.epoch =
      some voter ∧ processVote b58 a slotHashes clock vote signers = a.store (do
        let eligible ← liftPanic (processVoteEligible b58 clock slotHashes voter)
        if eligible then do
          let _ ← verifyAuthorizedSigner voter signers
          let voted ← mapErr VoteError.into (VoteState.processVote
            { versioned.convertToCurrent with
              authorizedVoters :=
                versioned.convertToCurrent.authorizedVoters.updated clock.epoch voter }
            vote slotHashes clock.epoch)
          mapErr VoteError.into (voted.processVoteTimestamp vote)
        else .error (.error .uninitializedAccount)) := by
  obtain ⟨voter, hvoter, hupdate⟩ := getAndUpdateAuthorizedVoter_ok hknown
  refine ⟨voter, hvoter, ?_⟩
  unfold processVote VoteAccount.state
  rw [hdata]
  simp only [bind, Except.bind, hinit, hupdate, liftPanic_ok, expect_some, Bool.false_eq_true,
    if_false]

/-- With a known voter, a vote aborts on the missing slot hash and nowhere else. -/
theorem processVote_aborts :
    (slotHashes = [] →
      (processVote b58 a slotHashes clock vote signers).1 = .error (.panic .indexOutOfBounds)) ∧
    (slotHashes ≠ [] → NoPanic (processVote b58 a slotHashes clock vote signers).1) := by
  obtain ⟨voter, -, heq⟩ := @processVote_eq b58 _ _ _ hdata hinit slotHashes hknown vote signers
  rw [heq]
  refine ⟨?_, fun hne => VoteAccount.store_noPanic.mpr ?_⟩
  · rintro rfl
    rfl
  · obtain ⟨eligible, he⟩ := (processVoteEligible_ok_iff clock slotHashes voter).mpr hne
    rw [he]
    refine NoPanic.bind (NoPanic.ok eligible) fun b => ?_
    split
    · refine (verifyAuthorizedSigner_noPanic voter signers).bind fun _ => ?_
      refine ((processVote_noPanic _ vote slotHashes clock.epoch).mapErr _).bind fun voted => ?_
      exact (processVoteTimestamp_noPanic voted vote).mapErr _
    · exact NoPanic.error _

end

/-- **When processing a vote does not abort.**  On every initialized account, for every clock whose
epoch is not before the account's first one, every vote and all signers: the instruction returns,
with the account unchanged if it returns an error, if and only if the list of slot hashes is not
empty. -/
theorem processVote_returns_iff (b58 : Base58) {a : VoteAccount} {versioned : VoteStateVersions}
    (hdata : a.data = some versioned) (hinit : versioned.isUninitialized = false)
    (slotHashes : List SlotHash) {clock : Clock}
    (hclock : ∀ e pubkey, versioned.convertToCurrent.authorizedVoters.first = some (e, pubkey) →
      e ≤ clock.epoch) (vote : Vote) (signers : Finset Pubkey) :
    (NoPanic (processVote b58 a slotHashes clock vote signers).1 ∧
      ∀ fault, (processVote b58 a slotHashes clock vote signers).1 = .error fault →
        (processVote b58 a slotHashes clock vote signers).2 = a) ↔ slotHashes ≠ [] := by
  obtain ⟨hempty, hsome⟩ := @processVote_aborts b58 _ _ _ hdata hinit slotHashes
    (known_of_first_le hinit hclock) vote signers
  constructor
  · rintro ⟨hret, -⟩ hnil
    exact hret _ (hempty hnil)
  · intro hne
    exact ⟨hsome hne, fun fault h => VoteAccount.store_error h⟩

/-- An account with voter 0 from epoch 0 on. -/
def zeroAccount : VoteAccount :=
  ⟨0, some (.current (VoteState.new ⟨0, 0, 0, 0⟩ (.early 0 0))), VoteState.sizeOf⟩

theorem processVote_returns_iff_zero :
    NoPanic (processVote zeroBase58 zeroAccount [(1, 0)] ⟨2, 0, 0, 0, Nat.le_refl 0, by decide⟩
      (Vote.new [1] 0) ∅).1 :=
  ((processVote_returns_iff zeroBase58 rfl (by decide) [(1, 0)]
    (fun e pubkey h => by cases h; exact Nat.le_refl _) (Vote.new [1] 0) ∅).mpr (by decide)).1

/-- A vote against an empty list of slot hashes aborts, where the vote state alone would return
`VoteTooOld`. -/
theorem processVote_empty_slotHashes :
    (processVote zeroBase58 zeroAccount [] ⟨2, 0, 0, 0, Nat.le_refl 0, by decide⟩
      (Vote.new [1] 0) {0}).1 = .error (.panic .indexOutOfBounds) ∧
    VoteState.processVote VoteState.default (Vote.new [1] 0) [] 0 = .error (.error .voteTooOld) :=
  ⟨(@processVote_aborts zeroBase58 zeroAccount _ ⟨2, 0, 0, 0, Nat.le_refl 0, by decide⟩
    rfl (by decide) []
    ⟨0, Nat.le_refl _, by decide⟩ (Vote.new [1] 0) {0}).1 rfl, rfl⟩

end Panoptes.VoteProgram
