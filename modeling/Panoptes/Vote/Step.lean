import Panoptes.Vote.ProcessVote

/-!
# What an instruction can write

Every instruction of the vote program writes at most one new state, made from the one it read and
the clock.  `Change` and `Write` list the ways, and everything about runs of instructions is shown
by cases on them.

* `Change` — the states that an instruction on an initialized account can write; `Write` adds those
  that create the account and reset it.
* `Attempt` — an instruction leaves the account data alone, or attempts one write, which succeeds if
  the account is large enough.

Principal result: `processInstruction_attempt`, every instruction is an `Attempt` of a `Write`, and
votes and authorizations of a `Change`.
-/

set_option autoImplicit false

namespace Panoptes.VoteProgram

open Lib Sdk

variable {a : VoteAccount} {R : VoteState → VoteState → Prop} {α : Type} {Q : α → Prop}
  {vs vs' : VoteState} {epoch : Nat} {vote : Vote}

section

variable (a : VoteAccount) (R : VoteState → VoteState → Prop)

/-- The prior voters once `authorized` follows the voter `latest`. -/
def CircBuf.switch (c : CircBuf (Pubkey × Nat × Nat)) (latest authorized : Pubkey)
    (targetEpoch : Nat) : CircBuf (Pubkey × Nat × Nat) :=
  if latest ≠ authorized then c.append (latest, (c.last.map (·.2.2)).getD 0, targetEpoch) else c

inductive Change (clock : Clock) (vs : VoteState) : VoteState → Prop where
  /-- A new voter from the epoch after the leader schedule epoch on, which had no entry. -/
  | authorizeVoter (voter authorized : Pubkey) (priorVoters : CircBuf (Pubkey × Nat × Nat))
      (hvoter : vs.authorizedVoters.getAuthorizedVoter clock.epoch = some voter)
      (hfree : (vs.authorizedVoters.updated clock.epoch voter).contains
        (clock.leaderScheduleEpoch + 1) = false)
      (hprior : ∃ latest, (vs.authorizedVoters.updated clock.epoch voter).last = some latest ∧
        priorVoters = vs.priorVoters.switch latest.2 authorized (clock.leaderScheduleEpoch + 1)) :
      Change clock vs { vs with
        priorVoters := priorVoters
        authorizedVoters := (vs.authorizedVoters.updated clock.epoch voter).insert
          (clock.leaderScheduleEpoch + 1) authorized }
  /-- New values for the fields the withdraw authority controls. -/
  | update (nodePubkey authorizedWithdrawer : Pubkey) (commission : Nat) :
      Change clock vs { vs with
        nodePubkey := nodePubkey
        authorizedWithdrawer := authorizedWithdrawer
        commission := commission }
  /-- A vote. -/
  | vote (voter : Pubkey) (slots : List Nat) (lastTimestamp : BlockTimestamp)
      (hvoter : vs.authorizedVoters.getAuthorizedVoter clock.epoch = some voter) :
      Change clock vs { slots.foldl (fun vs slot => vs.processSlot slot clock.epoch)
          { vs with authorizedVoters := vs.authorizedVoters.updated clock.epoch voter } with
        lastTimestamp := lastTimestamp }

/-- The states that an instruction can write, by the state it read. -/
inductive Write (clock : Clock) (vs : VoteState) : VoteState → Prop where
  | change {vs' : VoteState} (h : Change clock vs vs') : Write clock vs vs'
  | create (voteInit : VoteInit) : Write clock vs (VoteState.new voteInit clock)
  | reset : Write clock vs VoteState.default

/-- What can come of the state an instruction computes: a state related to the one it read, or an
error other than that of a small account. -/
def Computed (r : Res InstructionError VoteState) : Prop :=
  Returns r (fun vs' => ∃ versioned, a.data = some versioned ∧ R versioned.convertToCurrent vs')
    fun fault => fault ≠ .error .accountDataTooSmall

/-- An instruction on an account: the result and the account after it. -/
def Attempt (result : Res InstructionError Unit × VoteAccount) : Prop :=
  result.2.dataLen = a.dataLen ∧
  ((result.2.data = a.data ∧ result.1 ≠ .error (.error .accountDataTooSmall)) ∨
    ∃ versioned vs', a.data = some versioned ∧ R versioned.convertToCurrent vs' ∧
      if vs'.serializedSize > a.dataLen then
        result.1 = .error (.error .accountDataTooSmall) ∧ result.2.data = a.data
      else result.1 = .ok () ∧ result.2.data = some (.current vs'))

end

theorem Attempt.imp {R' : VoteState → VoteState → Prop}
    {result : Res InstructionError Unit × VoteAccount}
    (h : Attempt a R result) (hR : ∀ vs vs', R vs vs' → R' vs vs') : Attempt a R' result := by
  obtain ⟨hlen, hsame | ⟨versioned, vs', hdata, hrel, hresult⟩⟩ := h
  · exact ⟨hlen, .inl hsame⟩
  · exact ⟨hlen, .inr ⟨versioned, vs', hdata, hR _ _ hrel, hresult⟩⟩

theorem Computed.attempt {r : Res InstructionError VoteState} (h : Computed a R r) :
    Attempt a R (a.store r) := by
  cases r with
  | error =>
    refine ⟨rfl, .inl ⟨rfl, fun hf => h ?_⟩⟩
    cases hf
    rfl
  | ok vs' =>
    obtain ⟨versioned, hdata, hwrite⟩ := h
    show Attempt a R (a.setState vs')
    unfold VoteAccount.setState
    by_cases hsize : vs'.serializedSize > a.dataLen
    · rw [if_pos hsize]
      exact ⟨rfl, .inr ⟨versioned, vs', hdata, hwrite, by rw [if_pos hsize]; exact ⟨rfl, rfl⟩⟩⟩
    · rw [if_neg hsize]
      exact ⟨rfl, .inr ⟨versioned, vs', hdata, hwrite, by rw [if_neg hsize]; exact ⟨rfl, rfl⟩⟩⟩

/-! ## The instructions one by one -/

def NotTooSmall (fault : Fault InstructionError) : Prop := fault ≠ .error .accountDataTooSmall

theorem state_returns (a : VoteAccount) :
    Returns a.state (fun versioned => a.data = some versioned) NotTooSmall := by
  unfold VoteAccount.state
  cases a.data with
  | none => exact fun h => by cases h
  | some => exact rfl

theorem verifyAuthorizedSigner_returns (authorized : Pubkey) (signers : Finset Pubkey) :
    Returns (verifyAuthorizedSigner authorized signers)
      (fun _ => authorized ∈ signers) NotTooSmall := by
  unfold verifyAuthorizedSigner
  split
  · assumption
  · exact fun h => by cases h

theorem liftPanic_returns {x : Except Panic α} (h : ∀ a, x = .ok a → Q a) :
    Returns (liftPanic x) Q NotTooSmall := by
  cases x with
  | error => exact fun h => by cases h
  | ok a => exact h a rfl

/-- A successful lookup of the voter is `updated`. -/
theorem getAndUpdateAuthorizedVoter_inv {updated : Option Pubkey × VoteState}
    (h : vs.getAndUpdateAuthorizedVoter epoch = .ok updated) :
    ∃ voter, vs.authorizedVoters.getAuthorizedVoter epoch = some voter ∧
      updated =
        (some voter, { vs with authorizedVoters := vs.authorizedVoters.updated epoch voter }) := by
  have hknown : vs.authorizedVoters.Known epoch := by
    obtain ⟨found, hfound, -⟩ := bind_eq_ok.mp h
    exact AuthorizedVoters.known_of_getAndUpdate hfound
  obtain ⟨voter, hvoter, heq⟩ := getAndUpdateAuthorizedVoter_ok hknown
  rw [heq] at h
  cases h
  exact ⟨voter, hvoter, rfl⟩

theorem commitNewAuthorizedVoter_inv {authorized : Pubkey} {targetEpoch : Nat}
    (h : vs.commitNewAuthorizedVoter authorized targetEpoch = .ok vs') :
    ∃ latest, vs.authorizedVoters.last = some latest ∧ vs' = { vs with
      priorVoters := vs.priorVoters.switch latest.2 authorized targetEpoch
      authorizedVoters := vs.authorizedVoters.insert targetEpoch authorized } := by
  obtain ⟨latest, hlatest, h⟩ := bind_eq_ok.mp h
  have hlast : vs.authorizedVoters.last = some latest := by
    unfold expect at hlatest
    split at hlatest <;> cases hlatest
    assumption
  refine ⟨latest, hlast, ?_⟩
  unfold CircBuf.switch
  split at h
  · obtain ⟨-, -, h⟩ := bind_eq_ok.mp h
    cases h
    rw [if_pos ‹_›]
  · cases h
    rw [if_neg ‹_›]

theorem setNewAuthorizedVoter_returns (vs : VoteState) (authorized : Pubkey) (clock : Clock)
    (signers : Finset Pubkey) :
    Returns (vs.setNewAuthorizedVoter authorized clock.epoch (clock.leaderScheduleEpoch + 1)
        fun voter => verifyAuthorizedSigner voter signers)
      (Change clock vs) NotTooSmall := by
  refine Returns.bind (liftPanic_returns fun updated h => getAndUpdateAuthorizedVoter_inv h) ?_
  rintro updated ⟨voter, hvoter, rfl⟩
  refine (verifyAuthorizedSigner_returns _ signers).bind fun _ _ => ?_
  split
  · exact fun h => by cases h
  · rename_i hfree
    refine liftPanic_returns fun vs' h => ?_
    obtain ⟨latest, hlatest, rfl⟩ := commitNewAuthorizedVoter_inv h
    exact Change.authorizeVoter voter authorized _ hvoter (by simpa using hfree)
      ⟨latest, hlatest, rfl⟩

section

variable (a : VoteAccount) (signers : Finset Pubkey) (clock : Clock)

theorem authorize_attempt (authorized : Pubkey) (voteAuthorize : VoteAuthorize) :
    Attempt a (Change clock) (authorize a authorized voteAuthorize signers clock) := by
  refine Computed.attempt ((state_returns a).bind fun versioned hdata => ?_)
  cases voteAuthorize with
  | voter =>
    exact (setNewAuthorizedVoter_returns versioned.convertToCurrent authorized clock signers).imp
      fun vs' hwrite => ⟨versioned, hdata, hwrite⟩
  | withdrawer =>
    refine (verifyAuthorizedSigner_returns _ signers).bind fun _ _ => ?_
    exact ⟨versioned, hdata, Change.update _ authorized _⟩

theorem updateValidatorIdentity_attempt (nodePubkey : Pubkey) :
    Attempt a (Change clock) (updateValidatorIdentity a nodePubkey signers) := by
  refine Computed.attempt ((state_returns a).bind fun versioned hdata => ?_)
  refine (verifyAuthorizedSigner_returns _ signers).bind fun _ _ => ?_
  refine (verifyAuthorizedSigner_returns _ signers).bind fun _ _ => ?_
  exact ⟨versioned, hdata, Change.update nodePubkey _ _⟩

theorem updateCommission_attempt (commission : Nat) :
    Attempt a (Change clock) (updateCommission a commission signers) := by
  refine Computed.attempt ((state_returns a).bind fun versioned hdata => ?_)
  refine (verifyAuthorizedSigner_returns _ signers).bind fun _ _ => ?_
  exact ⟨versioned, hdata, Change.update _ _ commission⟩

theorem initializeAccount_attempt (voteInit : VoteInit) :
    Attempt a (Write clock) (initializeAccount a voteInit signers clock) := by
  refine Computed.attempt ((state_returns a).bind fun versioned hdata => ?_)
  split
  · refine (verifyAuthorizedSigner_returns _ signers).bind fun _ _ => ?_
    exact ⟨versioned, hdata, Write.create voteInit⟩
  · exact fun h => by cases h

end

/-- The state after the timestamp of a vote differs in the timestamp only. -/
theorem processVoteTimestamp_inv (h : vs.processVoteTimestamp vote = .ok vs') :
    ∃ lastTimestamp, vs' = { vs with lastTimestamp := lastTimestamp } := by
  unfold VoteState.processVoteTimestamp at h
  split at h
  · cases h
    exact ⟨_, rfl⟩
  · split at h
    · cases h
    · unfold VoteState.processTimestamp at h
      split at h
      · cases h
      · cases h
        exact ⟨_, rfl⟩

theorem processVote_inv {slotHashes : List SlotHash}
    (h : vs.processVote vote slotHashes epoch = .ok vs') :
    vs' = vote.slots.foldl (fun vs slot => vs.processSlot slot epoch) vs := by
  unfold VoteState.processVote at h
  split at h
  · cases h
  · obtain ⟨-, -, h⟩ := bind_eq_ok.mp h
    cases h
    rfl

theorem mapErr_into_returns {x : Res VoteError α} (h : ∀ a, x = .ok a → Q a) :
    Returns (mapErr VoteError.into x) Q NotTooSmall := by
  cases x with
  | ok a => exact h a rfl
  | error fault =>
    cases fault with
    | panic => exact fun hf => by cases hf
    | error e => exact fun hf => by cases e <;> cases hf

theorem processVote_attempt (b58 : Base58) (a : VoteAccount) (slotHashes : List SlotHash)
    (clock : Clock) (vote : Vote) (signers : Finset Pubkey) :
    Attempt a (Change clock) (processVote b58 a slotHashes clock vote signers) := by
  refine Computed.attempt ((state_returns a).bind fun versioned hdata => ?_)
  split
  · exact fun h => by cases h
  refine Returns.bind (liftPanic_returns fun updated h => getAndUpdateAuthorizedVoter_inv h) ?_
  rintro updated ⟨voter, hvoter, rfl⟩
  refine Returns.bind (liftPanic_returns fun _ _ => trivial) fun _ _ => ?_
  refine Returns.bind (liftPanic_returns fun _ _ => trivial) fun _ _ => ?_
  split
  · refine (verifyAuthorizedSigner_returns _ signers).bind fun _ _ => ?_
    refine Returns.bind (mapErr_into_returns fun voted h => processVote_inv h) ?_
    rintro voted rfl
    refine mapErr_into_returns fun vs' h => ?_
    obtain ⟨lastTimestamp, rfl⟩ := processVoteTimestamp_inv h
    exact ⟨versioned, hdata, Change.vote voter vote.slots lastTimestamp hvoter⟩
  · exact fun h => by cases h

theorem transfer_data (a : VoteAccount) (lamports : Nat) (recipient : Recipient) :
    (transfer a lamports recipient).1.data = a.data ∧
      (transfer a lamports recipient).1.dataLen = a.dataLen := by
  cases recipient <;> exact ⟨rfl, rfl⟩

theorem checkWithdrawer_returns (a : VoteAccount) (signers : Finset Pubkey) :
    Returns (checkWithdrawer a signers)
      (fun _ => ∃ versioned, a.data = some versioned) NotTooSmall :=
  (state_returns a).bind fun versioned hdata =>
    (verifyAuthorizedSigner_returns _ signers).imp fun _ _ => ⟨versioned, hdata⟩

theorem withdraw_attempt (a : VoteAccount) (lamports : Nat) (recipient : Recipient)
    (signers : Finset Pubkey) (clock : Clock) :
    Attempt a (Write clock) ((withdraw a lamports recipient signers).1,
      (withdraw a lamports recipient signers).2.1) := by
  have hcheck := checkWithdrawer_returns a signers
  unfold withdraw
  cases hc : checkWithdrawer a signers with
  | error =>
    rw [hc] at hcheck
    refine ⟨rfl, .inl ⟨rfl, fun hf => hcheck ?_⟩⟩
    cases hf
    rfl
  | ok =>
    rw [hc] at hcheck
    obtain ⟨versioned, hdata⟩ := hcheck
    simp only
    split
    · exact ⟨rfl, .inl ⟨rfl, fun h => by cases h⟩⟩
    split
    · -- the whole balance: the account is written
      unfold VoteAccount.setState
      by_cases hsize : VoteState.default.serializedSize > a.dataLen
      · rw [if_pos hsize]
        exact ⟨rfl, .inr ⟨versioned, _, hdata, Write.reset, by rw [if_pos hsize]; exact ⟨rfl, rfl⟩⟩⟩
      · rw [if_neg hsize]
        refine ⟨(transfer_data _ lamports recipient).2, .inr ⟨versioned, _, hdata, Write.reset, ?_⟩⟩
        rw [if_neg hsize]
        exact ⟨rfl, (transfer_data _ lamports recipient).1⟩
    · exact ⟨(transfer_data a lamports recipient).2,
        .inl ⟨(transfer_data a lamports recipient).1, fun h => by cases h⟩⟩

/-- The instructions of the voter and of those who appoint it. -/
def VoteInstruction.isVoting : VoteInstruction → Bool
  | .authorize _ _ => true
  | .vote _ => true
  | .voteSwitch _ _ => true
  | _ => false

theorem processInstruction_change {b58 : Base58} {ctx : InstructionContext} {a : VoteAccount}
    {instruction : VoteInstruction} (h : instruction.isVoting = true) :
    Attempt a (Change ctx.clock) (processInstruction b58 ctx a instruction) := by
  cases instruction with
  | authorize authorized voteAuthorize =>
    exact authorize_attempt a ctx.signers ctx.clock authorized voteAuthorize
  | vote vote => exact processVote_attempt b58 a ctx.slotHashes ctx.clock vote ctx.signers
  | voteSwitch vote => exact processVote_attempt b58 a ctx.slotHashes ctx.clock vote ctx.signers
  | _ => cases h

/-- **Every instruction attempts at most one write.** -/
theorem processInstruction_attempt (b58 : Base58) (ctx : InstructionContext) (a : VoteAccount)
    (instruction : VoteInstruction) :
    Attempt a (Write ctx.clock) (processInstruction b58 ctx a instruction) := by
  cases instruction with
  | initializeAccount voteInit =>
    simp only [processInstruction]
    split
    · exact initializeAccount_attempt a ctx.signers ctx.clock voteInit
    · exact ⟨rfl, .inl ⟨rfl, fun h => by cases h⟩⟩
  | authorize => exact (processInstruction_change rfl).imp fun _ _ => Write.change
  | vote => exact (processInstruction_change rfl).imp fun _ _ => Write.change
  | voteSwitch => exact (processInstruction_change rfl).imp fun _ _ => Write.change
  | withdraw lamports => exact withdraw_attempt a lamports ctx.recipient ctx.signers ctx.clock
  | updateValidatorIdentity =>
    exact (updateValidatorIdentity_attempt a ctx.signers ctx.clock ctx.key).imp
      fun _ _ => Write.change
  | updateCommission commission =>
    exact (updateCommission_attempt a ctx.signers ctx.clock commission).imp fun _ _ => Write.change

/-- The account after a sequence of instructions, each with its context. -/
def runInstructions (b58 : Base58) (a : VoteAccount)
    (ops : List (InstructionContext × VoteInstruction)) : VoteAccount :=
  ops.foldl (fun a op => (processInstruction b58 op.1 a op.2).2) a

end Panoptes.VoteProgram
