import Panoptes.Vote.Stack
import Panoptes.Vote.Step

/-!
# The size of a vote account

An account is allocated with `VoteState::size_of()` bytes and is never resized, so every state that
an instruction writes has to fit.  Three parts of a state vary in length: the stack of votes is
bounded by rooting, the table of credits by eviction, and the map of authorized voters by purging,
since its entries lie between the current epoch and the epoch after the leader schedule epoch.

* `SizeInv` — the three bounds, with the bound on the epochs of the map.
* `SizeInv.processSlot`, `SizeInv.write` — votes and instructions keep them.
* `SizeInv.serializedSize_le` — a state within the bounds fits.

Principal result: `voteAccount_fits`.
-/

set_option autoImplicit false

namespace Panoptes.VoteProgram

open Lib Sdk AuthorizedVoters

variable {vs : VoteState} {epoch epoch' : Nat}

/-- The bounds on the variable parts of a state, at a current epoch. -/
structure SizeInv (vs : VoteState) (epoch : Nat) : Prop where
  votes : vs.votes.length ≤ MAX_LOCKOUT_HISTORY
  epochCredits : vs.epochCredits.length ≤ MAX_EPOCH_CREDITS_HISTORY
  voters : vs.authorizedVoters.authorizedVoters.size ≤ MAX_LEADER_SCHEDULE_EPOCH_OFFSET + 1
  voters_le : ∀ e, vs.authorizedVoters.contains e = true →
    e ≤ epoch + MAX_LEADER_SCHEDULE_EPOCH_OFFSET

theorem SizeInv.mono (h : SizeInv vs epoch) (hle : epoch ≤ epoch') : SizeInv vs epoch' :=
  { h with voters_le := fun e he => (h.voters_le e he).trans (Nat.add_le_add_right hle _) }

theorem sizeOf_eq : VoteState.sizeOf = 3731 := by decide

theorem SizeInv.serializedSize_le (h : SizeInv vs epoch) :
    vs.serializedSize ≤ VoteState.sizeOf := by
  have hvotes := h.votes
  have hcredits := h.epochCredits
  have hvoters := h.voters
  rw [sizeOf_eq]
  unfold VoteState.serializedSize
  simp only [MAX_LOCKOUT_HISTORY, MAX_EPOCH_CREDITS_HISTORY, MAX_LEADER_SCHEDULE_EPOCH_OFFSET,
    MAX_ITEMS] at hvotes hcredits hvoters ⊢
  split <;> omega

/-! ## Votes -/

theorem length_modifyLast {α : Type} (f : α → α) (l : List α) :
    (l.modifyLast f).length = l.length := by
  rcases List.eq_nil_or_concat l with rfl | ⟨init, last, rfl⟩
  · rfl
  · rw [List.concat_eq_append, List.modifyLast_concat]
    simp

/-- A table that got one entry too many loses one. -/
theorem length_evict_le {ec : List EpochCredits} (h : ec.length ≤ MAX_EPOCH_CREDITS_HISTORY + 1) :
    (if ec.length > MAX_EPOCH_CREDITS_HISTORY then ec.drop 1 else ec).length ≤
      MAX_EPOCH_CREDITS_HISTORY := by
  split
  · rw [List.length_drop]
    omega
  · omega

theorem length_openEpoch_le {ec : List EpochCredits} (epoch : Nat)
    (h : ec.length ≤ MAX_EPOCH_CREDITS_HISTORY) :
    (openEpoch ec epoch).length ≤ MAX_EPOCH_CREDITS_HISTORY := by
  unfold openEpoch
  split
  · exact Nat.le_of_ble_eq_true rfl
  split
  · apply length_evict_le
    split
    · rw [List.length_append, List.length_singleton]
      omega
    · rw [length_modifyLast]
      omega
  · exact h

theorem SizeInv.processSlot (h : SizeInv vs epoch)
    (slot epoch' : Nat) : SizeInv (vs.processSlot slot epoch') epoch := by
  rcases processSlot_cases vs slot epoch' with ⟨-, heq⟩ | ⟨kept, expired, hv⟩
  · rw [heq]
    exact h
  have hkept := hv.kept_sublist.length_le
  have hvotes := h.votes
  rcases hv.result with ⟨hne, heq⟩ | ⟨root, rest, rfl, hfull, heq⟩
  · rw [heq]
    refine { h with votes := ?_ }
    simp only [length_doubleLockouts, List.length_append, List.length_singleton]
    omega
  · rw [heq]
    refine ⟨?_, ?_, h.voters, h.voters_le⟩
    · simp only [length_doubleLockouts, List.length_append, List.length_singleton]
      rw [List.length_cons] at hfull
      omega
    · show ((openEpoch vs.epochCredits epoch').modifyLast _).length ≤ _
      rw [length_modifyLast]
      exact length_openEpoch_le epoch' h.epochCredits

theorem SizeInv.foldl_processSlot (epoch' : Nat) (slots : List Nat) (h : SizeInv vs epoch) :
    SizeInv (slots.foldl (fun vs slot => vs.processSlot slot epoch') vs) epoch := by
  induction slots generalizing vs with
  | nil => exact h
  | cons slot slots ih => exact ih (h.processSlot slot epoch')

/-! ## Instructions -/

/-- Entries between the current epoch and three epochs later are at most four. -/
theorem size_le_of_window {av : AuthorizedVoters} {epoch : Nat}
    (h : ∀ e, av.contains e = true → epoch ≤ e ∧ e ≤ epoch + MAX_LEADER_SCHEDULE_EPOCH_OFFSET) :
    av.authorizedVoters.size ≤ MAX_LEADER_SCHEDULE_EPOCH_OFFSET + 1 := by
  refine (size_le_card_Icc h).trans ?_
  rw [Nat.card_Icc]
  omega

/-- After a lookup of the voter the map lies in the window of the current epoch. -/
theorem updated_window {av : AuthorizedVoters} (hle : epoch ≤ epoch')
    (h : ∀ e, av.contains e = true → e ≤ epoch + MAX_LEADER_SCHEDULE_EPOCH_OFFSET)
    (voter : Pubkey) : ∀ e, (av.updated epoch' voter).contains e = true →
      epoch' ≤ e ∧ e ≤ epoch' + MAX_LEADER_SCHEDULE_EPOCH_OFFSET := by
  intro e he
  rw [contains_updated] at he
  simp only [Bool.and_eq_true, Bool.or_eq_true, decide_eq_true_eq] at he
  obtain ⟨hge, rfl | he⟩ := he
  · omega
  · have := h e he
    omega

theorem SizeInv.default (epoch : Nat) : SizeInv VoteState.default epoch := by
  refine ⟨Nat.zero_le _, Nat.zero_le _, Nat.zero_le _, fun e he => ?_⟩
  simp [VoteState.default, AuthorizedVoters.default, AuthorizedVoters.contains] at he

theorem SizeInv.single {voter : Pubkey} (hvotes : vs.votes = []) (hcredits : vs.epochCredits = [])
    (hvoters : vs.authorizedVoters = new epoch voter) (hle : epoch ≤ epoch') :
    SizeInv vs epoch' := by
  have hcontains : ∀ e, vs.authorizedVoters.contains e = true → e = epoch := by
    intro e he
    rw [hvoters] at he
    have hnew := AuthorizedVoters.default.contains_insert epoch e voter
    rw [show (new epoch voter).contains e = _ from hnew] at he
    simpa [AuthorizedVoters.default, AuthorizedVoters.contains] using he
  refine ⟨by rw [hvotes]; exact Nat.zero_le _, by rw [hcredits]; exact Nat.zero_le _,
    @size_le_of_window _ epoch fun e he => ?_, fun e he => ?_⟩
  · have := hcontains e he
    exact ⟨this.ge, by omega⟩
  · have := hcontains e he
    omega

/-- **One write** keeps the bounds. -/
theorem SizeInv.write {clock : Clock} {vs' : VoteState} (h : SizeInv vs epoch)
    (hle : epoch ≤ clock.epoch)
    (hlse : clock.leaderScheduleEpoch + 1 ≤ clock.epoch + MAX_LEADER_SCHEDULE_EPOCH_OFFSET)
    (hw : Write clock vs vs') :
    SizeInv vs' clock.epoch := by
  cases hw with
  | create => exact SizeInv.single rfl rfl rfl (Nat.le_refl _)
  | reset => exact SizeInv.default clock.epoch
  | change hc =>
    cases hc with
    | authorizeVoter voter authorized =>
      have hwindow : ∀ e, ((vs.authorizedVoters.updated clock.epoch voter).insert
          (clock.leaderScheduleEpoch + 1) authorized).contains e = true →
          clock.epoch ≤ e ∧ e ≤ clock.epoch + MAX_LEADER_SCHEDULE_EPOCH_OFFSET := by
        intro e he
        rw [contains_insert] at he
        simp only [Bool.or_eq_true, decide_eq_true_eq] at he
        rcases he with rfl | he
        · exact ⟨Nat.le_succ_of_le clock.epoch_le, hlse⟩
        · exact updated_window hle h.voters_le voter e he
      exact ⟨h.votes, h.epochCredits, size_le_of_window hwindow, fun e he => (hwindow e he).2⟩
    | update =>
      exact ⟨h.votes, h.epochCredits, h.voters, (h.mono hle).voters_le⟩
    | vote voter slots =>
      have hwindow := updated_window hle h.voters_le voter
      have hbefore : SizeInv { vs with
          authorizedVoters := vs.authorizedVoters.updated clock.epoch voter } clock.epoch :=
        ⟨h.votes, h.epochCredits, size_le_of_window hwindow, fun e he => (hwindow e he).2⟩
      have hafter := hbefore.foldl_processSlot clock.epoch slots
      exact { hafter with }

/-! ## Runs -/

/-- The clocks of a run from `epoch` on: the epoch never decreases, and the leader schedule is less
than `MAX_LEADER_SCHEDULE_EPOCH_OFFSET` epochs ahead. -/
def EpochsFrom (epoch : Nat) : List (InstructionContext × VoteInstruction) → Prop
  | [] => True
  | op :: ops =>
    (epoch ≤ op.1.clock.epoch ∧ op.1.clock.leaderScheduleEpoch + 1 ≤
      op.1.clock.epoch + MAX_LEADER_SCHEDULE_EPOCH_OFFSET) ∧ EpochsFrom op.1.clock.epoch ops

/-- The account holds a state within the bounds and has the allocation of a vote account. -/
structure Fits (a : VoteAccount) (epoch : Nat) : Prop where
  data : ∃ versioned, a.data = some versioned ∧ SizeInv versioned.convertToCurrent epoch
  dataLen : a.dataLen = VoteState.sizeOf

/-- One instruction: the account stays within the bounds, and what is written fits. -/
theorem Fits.step {b58 : Base58} {ctx : InstructionContext} {a : VoteAccount} {epoch : Nat}
    {instruction : VoteInstruction} (h : Fits a epoch) (hle : epoch ≤ ctx.clock.epoch)
    (hlse : ctx.clock.leaderScheduleEpoch + 1 ≤
      ctx.clock.epoch + MAX_LEADER_SCHEDULE_EPOCH_OFFSET) :
    Fits (processInstruction b58 ctx a instruction).2 ctx.clock.epoch ∧
      (processInstruction b58 ctx a instruction).1 ≠ .error (.error .accountDataTooSmall) := by
  obtain ⟨versioned, hdata, hinv⟩ := h.data
  obtain ⟨hlen, ⟨hsame, hok⟩ | ⟨versioned', vs', hread, hwrite, hresult⟩⟩ :=
    processInstruction_attempt b58 ctx a instruction
  · exact ⟨⟨⟨versioned, hsame.trans hdata, hinv.mono hle⟩, hlen.trans h.dataLen⟩, hok⟩
  · have hv : versioned' = versioned := by
      rw [hdata] at hread
      cases hread
      rfl
    subst hv
    have hinv' := hinv.write hle hlse hwrite
    rw [if_neg (by rw [h.dataLen]; exact not_lt.mpr hinv'.serializedSize_le)] at hresult
    refine ⟨⟨⟨.current vs', hresult.2, hinv'⟩, hlen.trans h.dataLen⟩, fun herr => ?_⟩
    rw [hresult.1] at herr
    cases herr

theorem Fits.run {b58 : Base58} {pre post : List (InstructionContext × VoteInstruction)}
    {a : VoteAccount} {epoch : Nat} (h : Fits a epoch) (hclocks : EpochsFrom epoch (pre ++ post)) :
    ∃ epoch', Fits (runInstructions b58 a pre) epoch' ∧ EpochsFrom epoch' post := by
  induction pre generalizing a epoch with
  | nil => exact ⟨epoch, h, hclocks⟩
  | cons op pre ih =>
    obtain ⟨⟨hle, hlse⟩, hrest⟩ := hclocks
    exact ih (h.step hle hlse).1 hrest

/-- A newly allocated account: its data is all zeros, which decodes as an old state with no
voter. -/
def newAccount (lamports : Nat) : VoteAccount :=
  ⟨lamports, some (.v0235 ⟨0, 0, 0, 0, 0, [], none, [], ⟨0, 0⟩⟩), VoteState.sizeOf⟩

/-- **A vote account never outgrows its allocation.**  From a newly allocated account, after every
part `pre` of a run of instructions the state fits into `VoteState::size_of()` bytes, and the next
instruction does not fail for lack of space. -/
theorem voteAccount_fits (b58 : Base58) (lamports : Nat)
    (pre post : List (InstructionContext × VoteInstruction))
    (hclocks : EpochsFrom 0 (pre ++ post)) :
    (∃ versioned, (runInstructions b58 (newAccount lamports) pre).data = some versioned ∧
      versioned.convertToCurrent.serializedSize ≤ VoteState.sizeOf) ∧
    ∀ ctx instruction rest, post = (ctx, instruction) :: rest →
      (processInstruction b58 ctx (runInstructions b58 (newAccount lamports) pre) instruction).1 ≠
        .error (.error .accountDataTooSmall) := by
  have hnew : Fits (newAccount lamports) 0 :=
    ⟨⟨_, rfl, SizeInv.single rfl rfl rfl (Nat.le_refl 0)⟩, rfl⟩
  obtain ⟨epoch, hfits, hpost⟩ := @Fits.run b58 pre post _ _ hnew hclocks
  obtain ⟨versioned, hdata, hinv⟩ := hfits.data
  refine ⟨⟨versioned, hdata, hinv.serializedSize_le⟩, ?_⟩
  rintro ctx instruction rest rfl
  exact (hfits.step hpost.1.1 hpost.1.2).2

/-- Signed by the all-zero key after the cut-over. -/
def signedAt (slot : Nat) (slotHashes : List SlotHash) : InstructionContext :=
  ⟨{0}, .early slot (CUT_OVER + 1), slotHashes, fun _ _ => true, 0, .self⟩

def votingRun : List (InstructionContext × VoteInstruction) :=
  [(signedAt 0 [], .initializeAccount ⟨0, 0, 0, 0⟩),
    (signedAt 6 [(5, 0), (4, 0)], .vote (Vote.new [4, 5] 0)),
    (signedAt 7 [], .authorize 9 .voter),
    (signedAt 16 [(6, 0)], .vote (Vote.new [6] 0))]

theorem voteAccount_fits_votingRun :
    (∃ versioned, (runInstructions zeroBase58 (newAccount 1) votingRun).data = some versioned ∧
      versioned.convertToCurrent.votes.map (·.slot) = [4, 5, 6] ∧
      versioned.convertToCurrent.serializedSize ≤ VoteState.sizeOf) ∧
    (processInstruction zeroBase58 (signedAt 26 [(7, 0)])
      (runInstructions zeroBase58 (newAccount 1) votingRun)
      (.vote (Vote.new [7] 0))).1 ≠ .error (.error .accountDataTooSmall) := by
  have hclocks : EpochsFrom 0 (votingRun ++ [(signedAt 26 [(7, 0)], .vote (Vote.new [7] 0))]) := by
    simp [EpochsFrom, votingRun, signedAt, Clock.early]
    decide
  obtain ⟨⟨versioned, hdata, hsize⟩, hnext⟩ := voteAccount_fits zeroBase58 1 votingRun _ hclocks
  refine ⟨⟨versioned, hdata, ?_, hsize⟩, hnext _ _ [] rfl⟩
  have hvotes : (runInstructions zeroBase58 (newAccount 1) votingRun).data.map
      (fun versioned => versioned.convertToCurrent.votes.map (·.slot)) =
        some [4, 5, 6] := by decide +kernel
  rw [hdata] at hvotes
  exact Option.some.inj hvotes

end Panoptes.VoteProgram
