import Panoptes.Lib.SortedMap
import Panoptes.Vote.VoterLocking

/-!
# The history of voters

`prior_voters` of a vote account is the record of who could vote when: a range is appended when the
key of the latest voter changes, from the end of the range before it to the epoch from which the new
key votes.  Appointing the same key again adds an entry to the map of voters and no range.

* `CircBuf.Records` — the ranges of which the buffer holds the last ones.
* `Contiguous` — the first range starts at 0, each later one where the one before it ends, and the
  ends increase.
* `Recorded` — the voter of every epoch to come is that of its range, or the current one after the
  last range.

Principal result: `priorVoters_faithful`.
-/

set_option autoImplicit false

namespace Panoptes.VoteProgram

open Lib Sdk List AuthorizedVoters

/-- A voter, the epoch from which it was the voter, and the epoch from which it no longer was. -/
abbrev VoterRange := Pubkey × Nat × Nat

variable {c : CircBuf VoterRange} {av : AuthorizedVoters} {ranges : List VoterRange}
  {r : VoterRange} {current voter : Pubkey} {epoch e lse : Nat} {latest : Nat × Pubkey}

/-! ## The buffer -/

/-- The items were appended to an empty buffer in this order; the last `MAX_ITEMS` are still
there. -/
def CircBuf.Records (c : CircBuf VoterRange) (ranges : List VoterRange) : Prop :=
  c = ranges.foldl CircBuf.append (CircBuf.default (0, 0, 0))

theorem CircBuf.Records.append (h : c.Records ranges) (r : VoterRange) :
    (c.append r).Records (ranges ++ [r]) := by
  rw [Records, foldl_concat, ← h]

theorem CircBuf.Records.last (h : c.Records ranges) : c.last = ranges.getLast? := by
  rw [h]
  rcases eq_nil_or_concat ranges with rfl | ⟨init, r, rfl⟩
  · rfl
  · simp [CircBuf.append, CircBuf.last]

theorem CircBuf.append_ne (c : CircBuf VoterRange) (r : VoterRange) : c.append r ≠ c := by
  intro h
  have hidx : (c.idx + 1) % MAX_ITEMS = c.idx := congrArg (fun c => (c.idx : Nat)) h
  have := c.idx.isLt
  simp only [MAX_ITEMS] at hidx this
  omega

/-! ## The ranges -/

def lastEnd (ranges : List VoterRange) : Nat := (ranges.getLast?.map (·.2.2)).getD 0

/-- Each range starts where the one before it ends, the first at 0, and the ends increase. -/
inductive Contiguous : List VoterRange → Prop where
  | nil : Contiguous []
  | snoc {ranges : List VoterRange} {r : VoterRange} (h : Contiguous ranges)
    (hstart : r.2.1 = lastEnd ranges)
      (hend : ∀ s ∈ ranges, s.2.2 < r.2.2) : Contiguous (ranges ++ [r])

/-- The voter of an epoch: that of the first range that ends after it, or else the current one. -/
def voterIn (ranges : List VoterRange) (current : Pubkey) (e : Nat) : Pubkey :=
  ((ranges.find? fun r => decide (e < r.2.2)).map (·.1)).getD current

theorem voterIn_append (current : Pubkey) (h : e < r.2.2) :
    voterIn (ranges ++ [r]) current e = voterIn ranges r.1 e := by
  unfold voterIn
  rw [find?_append]
  cases ranges.find? fun r => decide (e < r.2.2) <;> simp [h]

theorem voterIn_of_le (current : Pubkey)
    (h : ∀ r ∈ ranges, r.2.2 ≤ e) : voterIn ranges current e = current := by
  unfold voterIn
  rw [find?_eq_none.mpr (by simpa using h)]
  rfl

theorem Contiguous.le_lastEnd (h : Contiguous ranges) : ∀ r ∈ ranges, r.2.2 ≤ lastEnd ranges := by
  cases h with
  | nil => simp
  | snoc h hstart hend =>
    rw [lastEnd, getLast?_concat]
    exact forall_mem_concat.mpr ⟨fun s hs => (hend s hs).le, le_rfl⟩

theorem Contiguous.voterIn_eq (h : Contiguous ranges) (current : Pubkey) (hr : r ∈ ranges)
    (hstart : r.2.1 ≤ e) (hend : e < r.2.2) : voterIn ranges current e = r.1 := by
  induction h generalizing current with
  | nil => cases hr
  | snoc h hstart' hend' ih =>
    rcases mem_append.mp hr with hr | hr
    · rw [voterIn_append _ (hend.trans (hend' r hr))]
      exact ih _ hr
    · obtain rfl := mem_singleton.mp hr
      rw [voterIn_append _ hend, voterIn_of_le _ fun s hs =>
        (h.le_lastEnd s hs).trans (hstart' ▸ hstart)]

/-! ## The history of a vote state -/

/-- The ranges of the prior voters `c`, and the voters from `epoch` on. -/
structure Recorded (c : CircBuf VoterRange) (av : AuthorizedVoters) (epoch : Nat)
    (ranges : List VoterRange) (current : Pubkey) : Prop where
  records : c.Records ranges
  contiguous : Contiguous ranges
  reached : ∃ e, av.contains e = true ∧ ∀ r ∈ ranges, r.2.2 ≤ e
  voter : ∀ e, epoch ≤ e → av.getAuthorizedVoter e = some (voterIn ranges current e)

section

variable (h : Recorded c av epoch ranges current)
include h

theorem Recorded.mono {epoch' : Nat} (hle : epoch ≤ epoch') :
    Recorded c av epoch' ranges current :=
  { h with voter := fun e he => h.voter e (hle.trans he) }

theorem Recorded.updated
    (hvoter : av.getAuthorizedVoter epoch = some voter) :
    Recorded c (av.updated epoch voter) epoch ranges current := by
  refine ⟨h.records, h.contiguous, ?_, fun e he => ?_⟩
  · obtain ⟨e, hcontains, hle⟩ := h.reached
    refine ⟨max e epoch, ?_, fun r hr => (hle r hr).trans (le_max_left _ _)⟩
    rw [contains_updated]
    rcases le_total e epoch with hmax | hmax <;> simp [hmax, hcontains]
  · rw [getAuthorizedVoter_updated hvoter he, h.voter e he]

omit h in
theorem getAuthorizedVoter_of_max {k : Nat} (hk : av.authorizedVoters[k]? = some voter)
    (hle : ∀ i, av.contains i = true → i ≤ k) (he : k ≤ e) : av.getAuthorizedVoter e =
      some voter := by
  rw [getAuthorizedVoter_eq, latest_eq_some_iff]
  refine ⟨k, hk, he, fun i hi _ => ?_⟩
  by_contra hne
  exact absurd (hle i (Option.isSome_iff_ne_none.mpr hne)) (Nat.not_le.mpr hi)

omit h in
/-- The last entry of the map is the one of the greatest epoch. -/
theorem last_eq_some (h : av.last = some latest) :
    av.authorizedVoters[latest.1]? = some latest.2 ∧ ∀ i, av.contains i = true → i ≤ latest.1 := by
  obtain ⟨init, hinit⟩ := getLast?_eq_some_iff.mp h
  have hget : ∀ entry : Nat × Pubkey, entry ∈ init ++ [latest] ↔ av.authorizedVoters[entry.1]? =
      some entry.2 := by
    rw [← hinit]
    exact fun entry => Std.ExtTreeMap.mem_toList_iff_getElem?_eq_some
  have hsorted := toList_sorted av.authorizedVoters
  rw [hinit] at hsorted
  refine ⟨(hget latest).mp mem_concat_self, fun i hi => ?_⟩
  obtain ⟨voter, hvoter⟩ := Option.isSome_iff_exists.mp hi
  rcases mem_append.mp ((hget (i, voter)).mpr hvoter) with hmem | hmem
  · exact ((pairwise_append.mp hsorted).2.2 _ hmem latest mem_cons_self).le
  · rw [← mem_singleton.mp hmem]

/-- The range that an instruction appended, if it appended one. -/
def switched (before after : CircBuf VoterRange) : List VoterRange :=
  if after = before then [] else after.last.toList

/-- What an instruction does to the history: it may append a range, and the voters up to `lse`
stay. -/
def Continues (c : CircBuf VoterRange) (ranges : List VoterRange) (current : Pubkey)
    (epoch lse : Nat) (c' : CircBuf VoterRange) (av' : AuthorizedVoters) : Prop :=
  ∃ current', Recorded c' av' epoch (ranges ++ switched c c') current' ∧
    ∀ e ≤ lse, voterIn (ranges ++ switched c c') current' e = voterIn ranges current e

theorem Recorded.continues : Continues c ranges current epoch lse c av := by
  refine ⟨current, ?_, fun e _ => ?_⟩ <;> rw [switched, if_pos rfl, append_nil]
  exact h

theorem Recorded.authorize (hepoch : epoch ≤ lse)
    (hle : ∀ i, av.contains i = true → i ≤ lse) (hlatest : av.last = some latest)
    (authorized : Pubkey) :
    Continues c ranges current epoch lse (c.switch latest.2 authorized (lse + 1))
      (av.insert (lse + 1) authorized) := by
  have hends : ∀ r ∈ ranges, r.2.2 ≤ lse := by
    obtain ⟨i, hi, hranges⟩ := h.reached
    exact fun r hr => (hranges r hr).trans (hle i hi)
  have hcurrent : latest.2 = current := by
    obtain ⟨hget, hmax⟩ := last_eq_some hlatest
    have hlast :=
      getAuthorizedVoter_of_max hget hmax (hle _ (by rw [AuthorizedVoters.contains, hget]; rfl))
    rw [h.voter _ hepoch, voterIn_of_le _ hends] at hlast
    exact (Option.some.inj hlast).symm
  have hmem : ∀ i, (av.insert (lse + 1) authorized).contains i = true → i ≤ lse + 1 := by
    intro i hi
    rw [AuthorizedVoters.contains_insert, Bool.or_eq_true, decide_eq_true_eq] at hi
    rcases hi with rfl | hi
    · exact le_rfl
    · exact (hle i hi).trans (Nat.le_succ _)
  have hreached : (av.insert (lse + 1) authorized).contains (lse + 1) = true := by
    rw [AuthorizedVoters.contains_insert, decide_eq_true rfl, Bool.true_or]
  -- the voters after the change, by epoch
  have hbefore : ∀ e, epoch ≤ e → e ≤ lse →
      (av.insert (lse + 1) authorized).getAuthorizedVoter e = some (voterIn ranges current e) :=
        fun e he hlt => by
    rw [getAuthorizedVoter_insert _ _ (by omega), h.voter e he]
  have hafter : ∀ e, lse + 1 ≤ e → (av.insert (lse + 1) authorized).getAuthorizedVoter e =
      some authorized :=
    fun e he => getAuthorizedVoter_of_max (by simp [AuthorizedVoters.insert]) hmem he
  rw [hcurrent, CircBuf.switch]
  by_cases hkey : current = authorized
  · rw [if_neg (not_not.mpr hkey)]
    refine Recorded.continues ⟨h.records, h.contiguous,
      ⟨_, hreached, fun r hr => (hends r hr).trans (Nat.le_succ _)⟩,
      fun e he => ?_⟩
    rcases Nat.lt_or_ge lse e with hlt | hge
    · rw [hafter e hlt, voterIn_of_le _ fun r hr => (hends r hr).trans hlt.le, hkey]
    · exact hbefore e he hge
  · rw [if_pos hkey, h.records.last, ← lastEnd]
    have hrecords := h.records.append (current, lastEnd ranges, lse + 1)
    have hswitched : switched c (c.append (current, lastEnd ranges, lse + 1)) =
        [(current, lastEnd ranges, lse + 1)] := by
      rw [switched, if_neg (c.append_ne _), hrecords.last, getLast?_concat]
      rfl
    refine ⟨authorized, ?_, fun e he => ?_⟩ <;> rw [hswitched]
    · refine ⟨hrecords, .snoc h.contiguous rfl fun s hs => Nat.lt_succ_of_le (hends s hs),
        ⟨_, hreached,
          forall_mem_concat.mpr ⟨fun r hr => (hends r hr).trans (Nat.le_succ _), le_rfl⟩⟩,
            fun e he => ?_⟩
      · rcases Nat.lt_or_ge lse e with hlt | hge
        · rw [hafter e hlt, voterIn_of_le]
          exact forall_mem_concat.mpr ⟨fun r hr => (hends r hr).trans hlt.le, hlt⟩
        · rw [hbefore e he hge, voterIn_append _ (Nat.lt_succ_of_le hge)]
    · rw [voterIn_append _ (Nat.lt_succ_of_le he)]

end

/-- **One instruction** continues the history. -/
theorem Recorded.change {clock : Clock} {vs vs' : VoteState}
    (h : Recorded vs.priorVoters vs.authorizedVoters clock.epoch ranges current)
    (hinv : VoterInv vs.authorizedVoters clock.epoch clock.leaderScheduleEpoch)
    (hc : vs' = vs ∨ Change clock vs vs') :
    Continues vs.priorVoters ranges current clock.epoch clock.leaderScheduleEpoch vs'.priorVoters
      vs'.authorizedVoters := by
  rcases hc with rfl | hc
  · exact h.continues
  cases hc with
  | update => exact h.continues
  | vote voter slots lastTimestamp hvoter =>
    simp only [(foldl_processSlot_voters _ _ _).1, (foldl_processSlot_voters _ _ _).2]
    exact (h.updated hvoter).continues
  | authorizeVoter voter authorized priorVoters hvoter hfree hprior =>
    obtain ⟨latest, hlatest, rfl⟩ := hprior
    refine (h.updated hvoter).authorize clock.epoch_le (fun i hi => ?_) hlatest authorized
    rcases Nat.lt_or_eq_of_le ((hinv.updated clock.epoch_le voter).le i hi) with hlt | rfl
    · exact Nat.le_of_lt_succ hlt
    · rw [hfree] at hi
      cases hi

/-! ## Runs -/

def VoteAccount.priorVoters (a : VoteAccount) : CircBuf VoterRange :=
  match a.data with
  | some versioned => versioned.convertToCurrent.priorVoters
  | none => .default (0, 0, 0)

/-- The ranges that a run appends to the prior voters, in order. -/
def rangesAppended (b58 : Base58) : VoteAccount → List (InstructionContext × VoteInstruction) →
    List VoterRange
  | _, [] => []
  | a, op :: ops =>
    let a' := (processInstruction b58 op.1 a op.2).2
    switched a.priorVoters a'.priorVoters ++ rangesAppended b58 a' ops

theorem Recorded.run (b58 : Base58) {ops : List (InstructionContext × VoteInstruction)}
    {clock : Clock} {a : VoteAccount}
    {vs : VoteState} (hdata : a.Holds vs)
    (h : Recorded vs.priorVoters vs.authorizedVoters clock.epoch ranges current)
    (hinv : VoterInv vs.authorizedVoters clock.epoch clock.leaderScheduleEpoch)
    (hclocks : ClocksFrom clock ops) (hvoting : ∀ op ∈ ops, op.2.isVoting = true) :
    ∃ vs' current', (runInstructions b58 a ops).Holds vs' ∧
      VoterInv vs'.authorizedVoters (lastClock clock ops).epoch
        (lastClock clock ops).leaderScheduleEpoch ∧
      Recorded vs'.priorVoters vs'.authorizedVoters (lastClock clock ops).epoch
        (ranges ++ rangesAppended b58 a ops) current' ∧
      ∀ e, (∀ op ∈ ops, e ≤ op.1.clock.leaderScheduleEpoch) →
        voterIn (ranges ++ rangesAppended b58 a ops) current' e = voterIn ranges current e := by
  induction ops generalizing clock a vs ranges current with
  | nil =>
    refine ⟨vs, current, hdata, hinv, ?_, fun e _ => ?_⟩ <;> rw [rangesAppended, append_nil]
    exact h
  | cons op ops ih =>
    obtain ⟨⟨hepoch, hlse⟩, hrest⟩ := hclocks
    have hinv := hinv.mono hepoch hlse
    obtain ⟨vs₁, hdata₁, hchange⟩ := hdata.step b58 (hvoting op mem_cons_self)
    obtain ⟨current₁, h₁, hvoters₁⟩ := (h.mono hepoch).change hinv hchange
    obtain ⟨vs', current', hdata', hinv', h', hvoters⟩ := ih hdata₁ h₁ (hinv.change hchange).1 hrest
      fun op' hop' => hvoting op' (mem_cons_of_mem _ hop')
    have hranges : ranges ++ rangesAppended b58 a (op :: ops) =
        ranges ++ switched vs.priorVoters vs₁.priorVoters
        ++ rangesAppended b58 (processInstruction b58 op.1 a op.2).2 ops := by
      rw [rangesAppended, VoteAccount.priorVoters, VoteAccount.priorVoters, hdata,
        hdata₁, append_assoc]
      rfl
    rw [hranges]
    refine ⟨vs', current', hdata', hinv', h', fun e he => ?_⟩
    rw [hvoters e fun op' hop' => he op' (mem_cons_of_mem _ hop'), hvoters₁ e (he op mem_cons_self)]

theorem Recorded.new (voteInit : VoteInit) (clock : Clock) :
    Recorded (VoteState.new voteInit clock).priorVoters
      (VoteState.new voteInit clock).authorizedVoters clock.epoch [] voteInit.authorizedVoter := by
  refine ⟨rfl, .nil, ⟨clock.epoch, contains_new.mpr rfl, fun r hr => (not_mem_nil hr).elim⟩,
    fun e he => ?_⟩
  exact getAuthorizedVoter_of_max (by simp [VoteState.new, AuthorizedVoters.new, voterIn])
    (fun i hi => (contains_new.mp hi).le) he

theorem rangesAppended_append (b58 : Base58) (a : VoteAccount)
    (pre post : List (InstructionContext × VoteInstruction)) :
    rangesAppended b58 a (pre ++ post) =
      rangesAppended b58 a pre ++ rangesAppended b58 (runInstructions b58 a pre) post := by
  induction pre generalizing a with
  | nil => rfl
  | cons op pre ih => rw [cons_append, rangesAppended, ih, rangesAppended, append_assoc]; rfl

/-- **`prior_voters` is a faithful history.** -/
theorem priorVoters_faithful (b58 : Base58) (voteInit : VoteInit)
    (lamports dataLen : Nat) (clock : Clock)
    (ops : List (InstructionContext × VoteInstruction)) (hclocks : ClocksFrom clock ops)
    (hvoting : ∀ op ∈ ops, op.2.isVoting = true) :
    let a : VoteAccount := ⟨lamports, some (.current (VoteState.new voteInit clock)), dataLen⟩
    Contiguous (rangesAppended b58 a ops) ∧
      (runInstructions b58 a ops).priorVoters.Records (rangesAppended b58 a ops) ∧
    ∀ pre post, ops = pre ++ post → ∃ vs, (runInstructions b58 a pre).Holds vs ∧
      ∀ e, (lastClock clock pre).epoch ≤ e → (∀ op ∈ post, e ≤ op.1.clock.epoch) →
        ∀ r ∈ rangesAppended b58 a ops, r.2.1 ≤ e → e < r.2.2 →
          vs.authorizedVoters.getAuthorizedVoter e = some r.1 := by
  intro a
  have hnew := Recorded.new voteInit clock
  have hinv₀ := VoterInv.new voteInit clock
  obtain ⟨vs', current', hdata', -, h', -⟩ := hnew.run b58 (a := a) rfl hinv₀ hclocks hvoting
  refine ⟨h'.contiguous, ?_, fun pre post hsplit => ?_⟩
  · rw [VoteAccount.priorVoters, hdata']
    exact h'.records
  · -- what is appended after `pre` changes the voter of no epoch up to then
    subst hsplit
    obtain ⟨hpre, hpost⟩ := hclocks.append
    obtain ⟨vs, current, hdata, hinv, h, -⟩ := hnew.run b58 (a := a) rfl hinv₀ hpre
      fun op hop => hvoting op (mem_append_left _ hop)
    obtain ⟨_, current'', -, -, h'', hvoters⟩ := h.run b58 hdata hinv hpost
      fun op hop => hvoting op (mem_append_right _ hop)
    rw [nil_append, ← rangesAppended_append] at h'' hvoters
    refine ⟨vs, hdata, fun e he hlast r hr hstart hend => ?_⟩
    rw [h.voter e he, nil_append, ← hvoters e fun op hop =>
      (hlast op hop).trans op.1.clock.epoch_le,
      h''.contiguous.voterIn_eq current'' hr hstart hend]

theorem priorVoters_faithful_appointAt :
    rangesAppended zeroBase58 zeroAccount [appointAt 0 1, appointAt 1 2] = [(0, 0, 2)] ∧
    Contiguous (rangesAppended zeroBase58 zeroAccount [appointAt 0 1, appointAt 1 2]) := by
  refine ⟨by decide +kernel, (priorVoters_faithful zeroBase58 ⟨0, 0, 0, 0⟩ 0 VoteState.sizeOf
    ⟨0, 0, 0, 0, Nat.le_refl 0, by decide⟩ [appointAt 0 1, appointAt 1 2] ?_ ?_).1⟩
  · simp [ClocksFrom, appointAt]
  · simp [appointAt, VoteInstruction.isVoting]

end Panoptes.VoteProgram
