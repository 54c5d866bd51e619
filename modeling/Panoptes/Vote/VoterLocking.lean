import Panoptes.Vote.Step

/-!
# Locking of the authorized voter

Runs of votes and authorizations on one vote account.  A lookup records the voter of the current
epoch and purges the past, and a new voter takes effect after the leader schedule epoch, so the
voter of an epoch whose leader schedule is known does not change until the epoch is over.

* `VoterInv` — an entry is at or before the current epoch, and none is later than the epoch after
  the leader schedule epoch.
* `VoterInv.change` — one instruction keeps it, and keeps the voters of the epochs in between.
* `ClocksFrom` — the clocks of a run.

Principal result: `authorizedVoter_locked`.
-/

set_option autoImplicit false

namespace Panoptes.VoteProgram

open Lib Sdk AuthorizedVoters

variable {av : AuthorizedVoters} {epoch lse : Nat} {clock : Clock} {vs : VoteState}
  {a : VoteAccount}

/-- The invariant of the authorized voters, at a current epoch and a leader schedule epoch. -/
structure VoterInv (av : AuthorizedVoters) (epoch leaderScheduleEpoch : Nat) : Prop where
  known : av.Known epoch
  le : ∀ e, av.contains e = true → e ≤ leaderScheduleEpoch + 1

theorem VoterInv.mono {epoch' lse' : Nat} (h : VoterInv av epoch lse) (hepoch : epoch ≤ epoch')
    (hlse : lse ≤ lse') :
    VoterInv av epoch' lse' :=
  ⟨h.known.mono hepoch, fun e he => (h.le e he).trans (by omega)⟩

theorem VoterInv.isEmpty (h : VoterInv av epoch lse) : av.isEmpty = false := by
  obtain ⟨e, -, he⟩ := h.known
  exact isEmpty_of_contains he

theorem VoterInv.updated (h : VoterInv av epoch lse) (hle : epoch ≤ lse)
    (voter : Pubkey) : VoterInv (av.updated epoch voter) epoch lse := by
  refine ⟨⟨epoch, Nat.le_refl _, by rw [contains_updated]; simp⟩, fun e he => ?_⟩
  rw [contains_updated] at he
  simp only [Bool.and_eq_true, Bool.or_eq_true, decide_eq_true_eq] at he
  obtain ⟨-, rfl | he⟩ := he
  · omega
  · exact h.le e he

theorem processSlot_voters (vs : VoteState) (slot epoch : Nat) :
    (vs.processSlot slot epoch).authorizedVoters = vs.authorizedVoters ∧
      (vs.processSlot slot epoch).priorVoters = vs.priorVoters := by
  rcases processSlot_cases vs slot epoch with ⟨-, heq⟩ | ⟨kept, expired, hv⟩
  · rw [heq]
    exact ⟨rfl, rfl⟩
  · rcases hv.result with ⟨-, heq⟩ | ⟨root, rest, -, -, heq⟩
    · rw [heq]
      exact ⟨rfl, rfl⟩
    · rw [heq]
      exact ⟨rfl, rfl⟩

theorem foldl_processSlot_voters (epoch : Nat) (slots : List Nat) (vs : VoteState) :
    (slots.foldl (fun vs slot => vs.processSlot slot epoch) vs).authorizedVoters =
      vs.authorizedVoters ∧
      (slots.foldl (fun vs slot => vs.processSlot slot epoch) vs).priorVoters = vs.priorVoters := by
  induction slots generalizing vs with
  | nil => exact ⟨rfl, rfl⟩
  | cons slot slots ih =>
    obtain ⟨hauthorized, hprior⟩ := processSlot_voters vs slot epoch
    exact ⟨(ih _).1.trans hauthorized, (ih _).2.trans hprior⟩

/-- **One instruction** keeps the invariant, and the voters of the epochs from the current one to
the leader schedule epoch. -/
theorem VoterInv.change {vs' : VoteState}
    (h : VoterInv vs.authorizedVoters clock.epoch clock.leaderScheduleEpoch)
    (hc : vs' = vs ∨ Change clock vs vs') :
    VoterInv vs'.authorizedVoters clock.epoch clock.leaderScheduleEpoch ∧
      ∀ e, clock.epoch ≤ e → e ≤ clock.leaderScheduleEpoch →
        vs'.authorizedVoters.getAuthorizedVoter e = vs.authorizedVoters.getAuthorizedVoter e := by
  rcases hc with rfl | hc
  · exact ⟨h, fun _ _ _ => rfl⟩
  cases hc with
  | authorizeVoter voter authorized priorVoters hvoter =>
    have hu := h.updated clock.epoch_le voter
    refine ⟨⟨?_, fun e he => ?_⟩, fun e hge hlt => ?_⟩
    · obtain ⟨e, hge, he⟩ := hu.known
      exact ⟨e, hge, by rw [contains_insert, he, Bool.or_true]⟩
    · rw [contains_insert] at he
      simp only [Bool.or_eq_true, decide_eq_true_eq] at he
      rcases he with rfl | he
      · exact Nat.le_refl _
      · exact hu.le e he
    · rw [getAuthorizedVoter_insert _ _ (by omega), getAuthorizedVoter_updated hvoter hge]
  | update => exact ⟨h, fun _ _ _ => rfl⟩
  | vote voter slots lastTimestamp hvoter =>
    simp only [(foldl_processSlot_voters _ _ _).1]
    exact ⟨h.updated clock.epoch_le voter, fun e hge _ => getAuthorizedVoter_updated hvoter hge⟩

/-! ## Aborts -/

theorem VoterInv.commitNewAuthorizedVoter {vs : VoteState} {epoch lse : Nat}
    (h : VoterInv vs.authorizedVoters epoch lse) (authorized : Pubkey)
    (hfree : vs.authorizedVoters.contains (lse + 1) = false) :
    ∃ vs', vs.commitNewAuthorizedVoter authorized (lse + 1) = .ok vs' := by
  obtain ⟨-, latest, hlatest, hcontains⟩ := mem_of_not_isEmpty h.isEmpty
  have hlt : lse + 1 > latest.1 := by
    have hle := h.le _ hcontains
    have hne : latest.1 ≠ lse + 1 := by
      rintro heq
      rw [heq, hfree] at hcontains
      cases hcontains
    omega
  unfold VoteState.commitNewAuthorizedVoter
  rw [hlatest]
  simp only [expect_some, bind, Except.bind]
  split
  · rw [assert_pos hlt]
    exact ⟨_, rfl⟩
  · exact ⟨_, rfl⟩

theorem VoterInv.setNewAuthorizedVoter_noPanic
    (h : VoterInv vs.authorizedVoters clock.epoch clock.leaderScheduleEpoch) (authorized : Pubkey)
    (signers : Finset Pubkey) :
    NoPanic (vs.setNewAuthorizedVoter authorized clock.epoch (clock.leaderScheduleEpoch + 1)
      fun voter => verifyAuthorizedSigner voter signers) := by
  obtain ⟨voter, -, hupdate⟩ := getAndUpdateAuthorizedVoter_ok h.known
  unfold VoteState.setNewAuthorizedVoter
  rw [hupdate]
  refine (verifyAuthorizedSigner_noPanic voter signers).bind fun _ => ?_
  split
  · exact NoPanic.error _
  · rename_i hfree
    obtain ⟨vs', hcommit⟩ := @VoterInv.commitNewAuthorizedVoter
      { vs with authorizedVoters := vs.authorizedVoters.updated clock.epoch voter } _ _
      (h.updated clock.epoch_le voter) authorized (by simpa using hfree)
    rw [hcommit]
    exact NoPanic.ok vs'

theorem VoterInv.authorize_noPanic {versioned : VoteStateVersions} (hdata : a.data = some versioned)
    (h : VoterInv versioned.convertToCurrent.authorizedVoters clock.epoch clock.leaderScheduleEpoch)
    (authorized : Pubkey) (voteAuthorize : VoteAuthorize) (signers : Finset Pubkey) :
    NoPanic (authorize a authorized voteAuthorize signers clock).1 := by
  unfold authorize VoteAccount.state
  rw [VoteAccount.store_noPanic, hdata]
  cases voteAuthorize with
  | voter => exact h.setNewAuthorizedVoter_noPanic authorized signers
  | withdrawer => exact (verifyAuthorizedSigner_noPanic _ signers).bind fun _ => NoPanic.ok _

/-- The state an account holds, in the current layout. -/
def VoteAccount.Holds (a : VoteAccount) (vs : VoteState) : Prop := a.data = some (.current vs)

/-- The only abort of votes and authorizations is that of a vote without slot hashes. -/
theorem VoterInv.aborts {b58 : Base58} {ctx : InstructionContext}
    {instruction : VoteInstruction} {p : Panic}
    (hdata : a.Holds vs)
    (h : VoterInv vs.authorizedVoters ctx.clock.epoch ctx.clock.leaderScheduleEpoch)
    (hvoting : instruction.isVoting = true)
    (hp : (processInstruction b58 ctx a instruction).1 = .error (.panic p)) :
    p = .indexOutOfBounds ∧ ctx.slotHashes = [] := by
  have hvote : ∀ vote, (processVote b58 a ctx.slotHashes ctx.clock vote ctx.signers).1 =
      .error (.panic p) → p = .indexOutOfBounds ∧ ctx.slotHashes = [] := by
    intro vote hp
    obtain ⟨hempty, hsome⟩ := @processVote_aborts b58 a _ ctx.clock hdata h.isEmpty ctx.slotHashes
      h.known vote ctx.signers
    by_cases hnil : ctx.slotHashes = []
    · rw [hempty hnil] at hp
      cases hp
      exact ⟨rfl, hnil⟩
    · exact absurd hp (hsome hnil p)
  cases instruction with
  | authorize authorized voteAuthorize =>
    exact absurd hp (VoterInv.authorize_noPanic hdata h authorized voteAuthorize ctx.signers p)
  | vote vote => exact hvote vote hp
  | voteSwitch vote => exact hvote vote hp
  | _ => cases hvoting

/-! ## Runs -/

/-- The clocks of a run that starts at `clock`: neither epoch ever decreases. -/
def ClocksFrom (clock : Clock) : List (InstructionContext × VoteInstruction) → Prop
  | [] => True
  | op :: ops =>
    (clock.epoch ≤ op.1.clock.epoch ∧
      clock.leaderScheduleEpoch ≤ op.1.clock.leaderScheduleEpoch) ∧ ClocksFrom op.1.clock ops

def lastClock (clock : Clock) (ops : List (InstructionContext × VoteInstruction)) : Clock :=
  ops.foldl (fun _ op => op.1.clock) clock

theorem ClocksFrom.append {pre post : List (InstructionContext × VoteInstruction)}
    (h : ClocksFrom clock (pre ++ post)) :
    ClocksFrom clock pre ∧ ClocksFrom (lastClock clock pre) post := by
  induction pre generalizing clock with
  | nil => exact ⟨trivial, h⟩
  | cons op pre ih =>
    obtain ⟨hop, hrest⟩ := h
    exact ⟨⟨hop, (ih hrest).1⟩, (ih hrest).2⟩

theorem VoteAccount.Holds.step (b58 : Base58) {ctx : InstructionContext} {a : VoteAccount}
    {vs : VoteState}
    {instruction : VoteInstruction} (hdata : a.Holds vs) (hvoting : instruction.isVoting = true) :
    ∃ vs', (processInstruction b58 ctx a instruction).2.Holds vs' ∧
      (vs' = vs ∨ Change ctx.clock vs vs') := by
  obtain ⟨-, ⟨hsame, -⟩ | ⟨versioned, vs', hread, hchange, hresult⟩⟩ :=
    @processInstruction_change b58 ctx a instruction hvoting
  · exact ⟨vs, hsame.trans hdata, .inl rfl⟩
  · have hv : versioned = .current vs := by
      have := hread.symm.trans hdata
      cases this
      rfl
    subst hv
    split at hresult
    · exact ⟨vs, hresult.2.trans hdata, .inl rfl⟩
    · exact ⟨vs', hresult.2, .inr hchange⟩

/-- **A run** keeps the invariant, and the voter of every epoch that is between the two epochs of
the clock all along. -/
theorem VoterInv.run {b58 : Base58} {ops : List (InstructionContext × VoteInstruction)}
    {clock : Clock} {a : VoteAccount} {vs : VoteState} (hdata : a.Holds vs)
    (h : VoterInv vs.authorizedVoters clock.epoch clock.leaderScheduleEpoch)
    (hclocks : ClocksFrom clock ops) (hvoting : ∀ op ∈ ops, op.2.isVoting = true) :
    ∃ vs', (runInstructions b58 a ops).Holds vs' ∧
      VoterInv vs'.authorizedVoters (lastClock clock ops).epoch
        (lastClock clock ops).leaderScheduleEpoch ∧
      ∀ e, (∀ op ∈ ops, op.1.clock.epoch ≤ e ∧ e ≤ op.1.clock.leaderScheduleEpoch) →
        vs'.authorizedVoters.getAuthorizedVoter e = vs.authorizedVoters.getAuthorizedVoter e := by
  induction ops generalizing clock a vs with
  | nil => exact ⟨vs, hdata, h, fun _ _ => rfl⟩
  | cons op ops ih =>
    obtain ⟨⟨hepoch, hlse⟩, hrest⟩ := hclocks
    obtain ⟨vs₁, hdata₁, hchange⟩ := hdata.step b58 (hvoting op List.mem_cons_self)
    obtain ⟨h₁, hvoters₁⟩ := (h.mono hepoch hlse).change hchange
    obtain ⟨vs', hdata', h', hvoters⟩ :=
      ih hdata₁ h₁ hrest fun op' hop' => hvoting op' (List.mem_cons_of_mem _ hop')
    refine ⟨vs', hdata', h', fun e he => ?_⟩
    obtain ⟨hge, hlt⟩ := he op List.mem_cons_self
    rw [hvoters e fun op' hop' => he op' (List.mem_cons_of_mem _ hop'), hvoters₁ e hge hlt]

theorem contains_new {voteInit : VoteInit} {e : Nat} :
    (VoteState.new voteInit clock).authorizedVoters.contains e = true ↔ e = clock.epoch := by
  have hcontains : (VoteState.new voteInit clock).authorizedVoters.contains e =
      (decide (e = clock.epoch) || AuthorizedVoters.default.contains e) :=
    default.contains_insert clock.epoch e voteInit.authorizedVoter
  rw [hcontains]
  simp [AuthorizedVoters.contains, AuthorizedVoters.default]

theorem VoterInv.new (voteInit : VoteInit) (clock : Clock) :
    VoterInv (VoteState.new voteInit clock).authorizedVoters clock.epoch
      clock.leaderScheduleEpoch := by
  refine ⟨⟨clock.epoch, Nat.le_refl _, contains_new.mpr rfl⟩, fun e he => ?_⟩
  have := clock.epoch_le
  rw [contains_new.mp he]
  omega

/-- **The authorized voter is locked.**  A new account, and votes and authorizations under clocks
that do not go back: after every part `pre` of the run the map of voters is not empty, the next
instruction does not abort except for a vote without slot hashes, and the voter of an epoch `e` does
not change over the rest of the run while the clock's epoch is at most `e` and its leader schedule
epoch is at least `e`. -/
theorem authorizedVoter_locked (b58 : Base58) (voteInit : VoteInit) (lamports dataLen : Nat)
    (clock : Clock) (pre post : List (InstructionContext × VoteInstruction))
    (hclocks : ClocksFrom clock (pre ++ post))
    (hvoting : ∀ op ∈ pre ++ post, op.2.isVoting = true) :
    let a : VoteAccount := ⟨lamports, some (.current (VoteState.new voteInit clock)), dataLen⟩
    ∃ vs vs', (runInstructions b58 a pre).Holds vs ∧
      (runInstructions b58 a (pre ++ post)).Holds vs' ∧
      vs.authorizedVoters.isEmpty = false ∧
      (∀ ctx instruction rest p, post = (ctx, instruction) :: rest →
        (processInstruction b58 ctx (runInstructions b58 a pre) instruction).1 = .error (.panic p) →
          p = .indexOutOfBounds ∧ ctx.slotHashes = []) ∧
      (∀ e, (∀ op ∈ post, op.1.clock.epoch ≤ e ∧ e ≤ op.1.clock.leaderScheduleEpoch) →
        vs'.authorizedVoters.getAuthorizedVoter e = vs.authorizedVoters.getAuthorizedVoter e) := by
  intro a
  obtain ⟨hpre, hpost⟩ := hclocks.append
  obtain ⟨vs, hdata, h, -⟩ := @VoterInv.run b58 pre clock a _ rfl (VoterInv.new voteInit clock) hpre
    fun op hop => hvoting op (List.mem_append_left _ hop)
  have hvoting' : ∀ op ∈ post, op.2.isVoting = true := fun op hop =>
    hvoting op (List.mem_append_right _ hop)
  obtain ⟨vs', hdata', -, hvoters⟩ := @VoterInv.run b58 post _ _ vs hdata h hpost hvoting'
  have happend : runInstructions b58 a (pre ++ post) =
      runInstructions b58 (runInstructions b58 a pre) post := List.foldl_append
  refine ⟨vs, vs', hdata, happend ▸ hdata', h.isEmpty, ?_, hvoters⟩
  rintro ctx instruction rest p rfl hp
  obtain ⟨⟨hepoch, hlse⟩, -⟩ := hpost
  exact VoterInv.aborts hdata (h.mono hepoch hlse) (hvoting' _ List.mem_cons_self) hp

/-- Voter 0 appoints `authorized` in an epoch whose leader schedule epoch is 1. -/
def appointAt (epoch : Fin 2) (authorized : Pubkey) : InstructionContext × VoteInstruction :=
  (⟨{0}, ⟨0, epoch, 1, 0, Nat.le_of_lt_succ epoch.2, by decide⟩, [], fun _ _ => true, 0, .self⟩,
    .authorize authorized .voter)

theorem authorizedVoter_locked_appointAt :
    ∃ vs vs' : VoteState,
      (runInstructions zeroBase58 zeroAccount [appointAt 0 1]).Holds vs ∧
      (runInstructions zeroBase58 zeroAccount [appointAt 0 1, appointAt 1 2]).Holds vs' ∧
      vs'.authorizedVoters.getAuthorizedVoter 1 = vs.authorizedVoters.getAuthorizedVoter 1 := by
  obtain ⟨vs, vs', hvs, hvs', -, -, hlocked⟩ := authorizedVoter_locked zeroBase58 ⟨0, 0, 0, 0⟩ 0
    VoteState.sizeOf ⟨0, 0, 0, 0, Nat.le_refl 0, by decide⟩ [appointAt 0 1] [appointAt 1 2]
    (by simp [ClocksFrom, appointAt]) (by simp [appointAt, VoteInstruction.isVoting])
  exact ⟨vs, vs', hvs, hvs', hlocked 1 (by simp [appointAt])⟩

end Panoptes.VoteProgram
