import Panoptes.Vote.Stack

/-!
# Credits

A vote earns its credit when it is rooted, and the credits are kept per epoch in `epoch_credits`.
Neither the stack nor the table remembers which votes were ever cast, so the run is read together
with a history of the votes that went onto the stack and of the two ways they left it.

* `History`, `logSlot`, `history` — what each `process_slot` pushed, rooted and expired.
* `Linked` — the shape of the credits table: epochs increase and each entry starts from the credits
  of the one before.
* `CreditsInv` — the invariant that ties the table, the stack and the history together.

Principal result: `processSlots_credits`.  The credits are the number of rooted votes, and every
vote that was ever cast is on the stack, was rooted, or had expired when it was popped.
-/

set_option autoImplicit false

namespace Panoptes.VoteProgram

open Lib Sdk List VoteState

/-! ## The history of a run -/

variable {vs : VoteState} {slot epoch : Nat} {init : List EpochCredits} {last : EpochCredits}

/-- The votes of a run: the slots pushed on the stack, the slots popped from its front as roots, and
the votes popped from its back with the slot that expired them, each in order. -/
structure History where
  pushed : List Nat
  rooted : List Nat
  expired : List (Lockout × Nat)

def History.empty : History := ⟨[], [], []⟩

/-- What `process_slot` does to the votes, added to the history. -/
def logSlot (vs : VoteState) (h : History) (slot : Nat) : History :=
  if vs.lastVotedSlot.any (fun last => decide (slot ≤ last)) then h
  else
    let kept := (vs.popExpiredVotes slot).votes
    { pushed := h.pushed ++ [slot]
      rooted :=
        if kept.length = MAX_LOCKOUT_HISTORY then h.rooted ++ (kept.take 1).map (·.slot)
        else h.rooted
      expired := h.expired ++ (vs.votes.drop kept.length).map fun v => (v, slot) }

/-- The history of a sequence of `process_slot` calls, added to an earlier one. -/
def historyFrom (vs : VoteState) (h : History) : List (Nat × Nat) → History
  | [] => h
  | call :: calls => historyFrom (vs.processSlot call.1 call.2) (logSlot vs h call.1) calls

def history (vs : VoteState) (calls : List (Nat × Nat)) : History :=
  historyFrom vs History.empty calls

theorem logSlot_ignored {last : Nat} (h : History) (hl : vs.lastVotedSlot = some last)
    (hle : slot ≤ last) : logSlot vs h slot = h :=
  if_pos (by simp [hl, hle])

/-- The history of a vote that is not ignored, by what becomes of the stack. -/
theorem logSlot_voted {vs' : VoteState} {kept expired : List Lockout} (h : History)
    (hv : Voted vs slot epoch kept expired vs') :
    logSlot vs h slot =
      { pushed := h.pushed ++ [slot]
        rooted :=
          if kept.length = MAX_LOCKOUT_HISTORY then h.rooted ++ (kept.take 1).map (·.slot)
          else h.rooted
        expired := h.expired ++ expired.map fun v => (v, slot) } := by
  have hnew : vs.lastVotedSlot.any (fun last => decide (slot ≤ last)) = false := by
    cases hl : vs.lastVotedSlot with
    | none => rfl
    | some last => simpa using hv.newer last hl
  have hdrop : vs.votes.drop kept.length = expired := by
    rw [hv.split, drop_left]
  unfold logSlot
  rw [hnew, if_neg Bool.false_ne_true, ← hv.kept_eq]
  simp only [hdrop]

/-! ## The table of credits -/

/-- The shape of the credits table. -/
structure Linked (ec : List EpochCredits) : Prop where
  epochs : ec.Pairwise fun a b => a.epoch < b.epoch
  grows : ∀ e ∈ ec, e.prevCredits ≤ e.credits
  linked : ec.IsChain fun a b => b.prevCredits = a.credits

theorem Linked.nil : Linked [] :=
  ⟨List.Pairwise.nil, (fun e h => by cases h), List.IsChain.nil⟩

theorem Linked.tail {e : EpochCredits} {ec : List EpochCredits} (h : Linked (e :: ec)) :
    Linked ec :=
  ⟨(pairwise_cons.mp h.epochs).2, fun e' he => h.grows e' (mem_cons_of_mem _ he), h.linked.tail⟩

/-- The last entry may be moved to a later epoch and may grow. -/
theorem Linked.update_last {last' : EpochCredits} (h : Linked (init ++ [last]))
    (hepoch : last.epoch ≤ last'.epoch) (hprev : last'.prevCredits = last.prevCredits)
    (hgrow : last'.prevCredits ≤ last'.credits) :
    Linked (init ++ [last']) := by
  obtain ⟨hinit, -, hlt⟩ := pairwise_append.mp h.epochs
  refine ⟨pairwise_append.mpr ⟨hinit, by simp, ?_⟩, ?_, ?_⟩
  · intro a ha b hb
    rw [mem_singleton] at hb
    have := hlt a ha last (by simp)
    rw [hb]
    omega
  · exact forall_mem_concat.mpr ⟨fun e he => h.grows e (mem_append_left _ he), hgrow⟩
  · have := h.linked
    rw [isChain_append] at this ⊢
    refine ⟨this.1, List.IsChain.singleton _, ?_⟩
    intro a ha b hb
    have hab := this.2.2 a ha last (by simp)
    simp only [head?_cons, Option.mem_some_iff] at hb
    rw [← hb, hprev, hab]

theorem Linked.push (h : Linked (init ++ [last])) (hepoch : last.epoch < epoch) :
    Linked (init ++ [last] ++ [⟨epoch, last.credits, last.credits⟩]) := by
  refine ⟨pairwise_append.mpr ⟨h.epochs, by simp, ?_⟩, ?_, ?_⟩
  · refine forall_mem_concat.mpr ⟨fun a ha => ?_, forall_mem_singleton.mpr hepoch⟩
    have := (pairwise_append.mp h.epochs).2.2 a ha last (by simp)
    exact forall_mem_singleton.mpr (this.trans hepoch)
  · exact forall_mem_concat.mpr ⟨h.grows, le_rfl⟩
  · rw [isChain_append]
    refine ⟨h.linked, List.IsChain.singleton _, ?_⟩
    intro a ha b hb
    simp only [getLast?_append, getLast?_singleton, Option.some_or, Option.mem_some_iff] at ha
    simp only [head?_cons, Option.mem_some_iff] at hb
    rw [← ha, ← hb]

/-- The table, bounded. -/
structure TableOk (ec : List EpochCredits) : Prop extends Linked ec where
  length_le : ec.length ≤ MAX_EPOCH_CREDITS_HISTORY

/-- A table that got one entry too many loses its oldest one. -/
theorem TableOk.trim (h : Linked (init ++ [last]))
    (hlen : init.length ≤ MAX_EPOCH_CREDITS_HISTORY) :
    ∃ init', (if (init ++ [last]).length > MAX_EPOCH_CREDITS_HISTORY then (init ++ [last]).drop 1
        else init ++ [last]) = init' ++ [last] ∧ TableOk (init' ++ [last]) := by
  split
  · rename_i hbig
    rw [length_append, length_singleton] at hbig
    cases init with
    | nil => exact absurd hbig (by decide)
    | cons e init =>
      refine ⟨init, rfl, h.tail, ?_⟩
      rw [length_append]
      exact hlen
  · rename_i hsmall
    exact ⟨init, rfl, h, Nat.le_of_not_lt hsmall⟩

/-- The entry of the new epoch: it continues the credits of the table. -/
theorem openEpoch_spec (h : TableOk vs.epochCredits) (hepoch : vs.currentEpoch ≤ epoch) :
    ∃ init last, openEpoch vs.epochCredits epoch = init ++ [last] ∧ TableOk (init ++ [last]) ∧
      last.epoch = epoch ∧ last.credits = vs.credits := by
  unfold currentEpoch at hepoch
  unfold credits openEpoch
  rcases eq_nil_or_concat vs.epochCredits with hnil | ⟨init, last, hconcat⟩
  · rw [hnil]
    refine ⟨[], ⟨epoch, 0, 0⟩, rfl, ⟨⟨by simp, ?_, List.IsChain.singleton _⟩, ?_⟩, rfl, rfl⟩
    · intro e he
      rw [nil_append, mem_singleton] at he
      rw [he]
    · exact Nat.le_of_ble_eq_true rfl
  rw [concat_eq_append] at hconcat
  rw [hconcat] at h hepoch ⊢
  have hlen : init.length + 1 ≤ MAX_EPOCH_CREDITS_HISTORY := by
    have := h.length_le
    rwa [length_append, length_singleton] at this
  have hgrows := h.grows last (by simp)
  simp only [getLast?_append, getLast?_singleton, Option.some_or] at hepoch ⊢
  by_cases heq : epoch = last.epoch
  · rw [if_neg (not_not.mpr heq)]
    exact ⟨init, last, rfl, h, heq.symm, rfl⟩
  rw [if_pos heq]
  by_cases hearned : last.credits ≠ last.prevCredits
  · -- credits were earned in the last epoch: it keeps its entry
    rw [if_pos hearned]
    obtain ⟨init', htrim, hok⟩ := TableOk.trim (h.toLinked.push (show last.epoch < epoch by omega))
      (by rw [length_append]; exact hlen)
    exact ⟨init', _, htrim, hok, rfl, rfl⟩
  · -- none were: its entry moves to the new epoch
    rw [if_neg hearned, modifyLast_concat]
    have hmoved : Linked (init ++ [{ last with epoch := epoch }]) :=
      h.toLinked.update_last hepoch rfl hgrows
    obtain ⟨init', htrim, hok⟩ := TableOk.trim hmoved (by omega)
    exact ⟨init', _, htrim, hok, rfl, rfl⟩

/-- **One credit.**  The table keeps its shape, the credits go up by one, and the last entry is the
one of the epoch. -/
theorem incrementCredits_spec (h : TableOk vs.epochCredits) (hepoch : vs.currentEpoch ≤ epoch)
    (hmax : vs.credits + 1 < U64) :
    TableOk (vs.incrementCredits epoch).epochCredits ∧
      (vs.incrementCredits epoch).credits = vs.credits + 1 ∧
      (vs.incrementCredits epoch).currentEpoch = epoch := by
  obtain ⟨init, last, hopen, hok, hlast, hcredits⟩ := openEpoch_spec h hepoch
  have hadd : wrapAdd last.credits 1 = last.credits + 1 := wrapAdd_eq (by omega)
  have hec : (vs.incrementCredits epoch).epochCredits =
      init ++ [{ last with credits := last.credits + 1 }] := by
    rw [incrementCredits, hopen, modifyLast_concat, hadd]
  have hgrows := hok.grows last (by simp)
  refine ⟨⟨?_, ?_⟩, ?_, ?_⟩
  · rw [hec]
    exact hok.toLinked.update_last (Nat.le_refl _) rfl (Nat.le_succ_of_le hgrows)
  · rw [hec]
    have := hok.length_le
    simp only [length_append] at this ⊢
    exact this
  · simp [credits, hec, hcredits]
  · simp [currentEpoch, hec, hlast]

/-! ## The run -/

variable {h : History}

/-- What ties the state of a run to its history. -/
structure CreditsInv (vs : VoteState) (h : History) : Prop where
  stack : StackInv vs
  table : TableOk vs.epochCredits
  credits : vs.credits = h.rooted.length
  votes : h.pushed.Perm (vs.votes.map (·.slot) ++ h.rooted ++ h.expired.map (·.1.slot))
  pushed : h.pushed.Pairwise (· < ·)
  pushed_lt : ∀ s ∈ h.pushed, s < U64
  pushed_le : ∀ s ∈ h.pushed, ∃ last, vs.lastVotedSlot = some last ∧ s ≤ last
  root : vs.rootSlot = h.rooted.getLast?
  expired : ∀ p ∈ h.expired, p.1.expirationSlot < p.2

theorem CreditsInv.empty (hvotes : vs.votes = []) (hroot : vs.rootSlot = none)
    (hcredits : vs.epochCredits = []) : CreditsInv vs History.empty where
  stack := StackInv.empty hvotes hroot
  table := by
    rw [hcredits]
    exact ⟨Linked.nil, Nat.zero_le _⟩
  credits := by simp [VoteState.credits, hcredits, History.empty]
  votes := by simp [hvotes, History.empty]
  pushed := List.Pairwise.nil
  pushed_lt := by simp [History.empty]
  pushed_le := by simp [History.empty]
  root := hroot
  expired := by simp [History.empty]

/-- Slots are `u64`s, so fewer than `2^64` different ones can be pushed. -/
theorem CreditsInv.length_pushed (hi : CreditsInv vs h) : h.pushed.length ≤ U64 := by
  have hnodup : h.pushed.Nodup := hi.pushed.imp fun hlt => Nat.ne_of_lt hlt
  have hsub : h.pushed.toFinset ⊆ Finset.range U64 := by
    intro s hs
    exact Finset.mem_range.mpr (hi.pushed_lt s (mem_toFinset.mp hs))
  calc h.pushed.length = h.pushed.toFinset.card := (toFinset_card_of_nodup hnodup).symm
    _ ≤ (Finset.range U64).card := Finset.card_le_card hsub
    _ = U64 := Finset.card_range U64

/-- Every vote of the history, counted by where it went. -/
theorem CreditsInv.count (hi : CreditsInv vs h) (s : Nat) :
    h.pushed.count s = (vs.votes.map (·.slot)).count s + h.rooted.count s +
      (h.expired.map (·.1.slot)).count s := by
  rw [hi.votes.count_eq, count_append, count_append]

/-- **One vote keeps the state and the history in step.** -/
theorem CreditsInv.processSlot (hi : CreditsInv vs h) (hslot : slot < U64)
    (hepoch : vs.currentEpoch ≤ epoch) :
    CreditsInv (vs.processSlot slot epoch) (logSlot vs h slot) ∧
      (vs.processSlot slot epoch).currentEpoch ≤ epoch := by
  rcases processSlot_cases vs slot epoch with ⟨⟨last, hl, hle⟩, heq⟩ | ⟨kept, expired, hv⟩
  · rw [heq, logSlot_ignored h hl hle]
    exact ⟨hi, hepoch⟩
  have hstack := (hi.stack.processSlot slot epoch).1
  have hnewest : ∀ s ∈ h.pushed, s < slot := by
    intro s hs
    obtain ⟨last, hl, hle⟩ := hi.pushed_le s hs
    exact Nat.lt_of_le_of_lt hle (hv.newer last hl)
  have hcount := hi.count
  have hlast := hv.lastVotedSlot
  -- what does not depend on whether the stack was full
  have hpushed : (h.pushed ++ [slot]).Pairwise (· < ·) := by
    refine pairwise_append.mpr ⟨hi.pushed, by simp, ?_⟩
    exact fun s hs => forall_mem_singleton.mpr (hnewest s hs)
  have hpushed_lt : ∀ s ∈ h.pushed ++ [slot], s < U64 := forall_mem_concat.mpr ⟨hi.pushed_lt, hslot⟩
  have hpushed_le : ∀ s ∈ h.pushed ++ [slot], ∃ last,
      (vs.processSlot slot epoch).lastVotedSlot = some last ∧ s ≤ last := by
    exact forall_mem_concat.mpr ⟨fun s hs => ⟨slot, hlast, (hnewest s hs).le⟩, slot, hlast, le_rfl⟩
  have hexpired : ∀ p ∈ h.expired ++ expired.map (fun v => (v, slot)),
      p.1.expirationSlot < p.2 := by
    refine forall_mem_append.mpr ⟨hi.expired, fun p hp => ?_⟩
    obtain ⟨v, hve, rfl⟩ := mem_map.mp hp
    exact hv.isExpired v hve
  rw [logSlot_voted h hv]
  rcases hv.result with ⟨hne, heq⟩ | ⟨root, rest, rfl, hfull, heq⟩
  · rw [if_neg hne]
    refine ⟨⟨hstack, ?_, ?_, ?_, hpushed, hpushed_lt, hpushed_le, ?_, hexpired⟩, ?_⟩
    · rw [heq]
      exact hi.table
    · rw [heq]
      exact hi.credits
    · rw [perm_iff_count]
      intro s
      have := hcount s
      rw [hv.split] at this
      simp only [heq, map_slot_push, map_append, map_map, count_append] at this ⊢
      simp only [Function.comp_def] at this ⊢
      omega
    · rw [heq]
      exact hi.root
    · rw [heq]
      exact hepoch
  · rw [if_pos hfull]
    have hroom : vs.credits + 1 < U64 := by
      have hlen := hi.length_pushed
      have hperm := hi.votes.length_eq
      have h31 : (root :: rest).length ≤ vs.votes.length := hv.kept_sublist.length_le
      rw [hfull, MAX_LOCKOUT_HISTORY] at h31
      simp only [length_append, length_map] at hperm
      rw [hi.credits]
      omega
    obtain ⟨htable, hcredits, hcur⟩ := incrementCredits_spec hi.table hepoch hroom
    refine ⟨⟨hstack, ?_, ?_, ?_, hpushed, hpushed_lt, hpushed_le, ?_, hexpired⟩, ?_⟩
    · rw [heq]
      exact htable
    · rw [heq]
      refine Eq.trans hcredits ?_
      rw [hi.credits]
      simp
    · rw [perm_iff_count]
      intro s
      have := hcount s
      rw [hv.split] at this
      simp only [heq, map_slot_push, map_append, map_map, count_append,
        take_succ_cons, take_zero, map_cons, count_cons,
        map_nil, count_nil] at this ⊢
      simp only [Function.comp_def] at this ⊢
      omega
    · rw [heq]
      simp
    · rw [heq]
      exact hcur.le

theorem CreditsInv.processSlots : ∀ {vs : VoteState} {h : History} (calls : List (Nat × Nat)),
    CreditsInv vs h → (∀ call ∈ calls, call.1 < U64) → (∀ call ∈ calls, vs.currentEpoch ≤ call.2) →
    (calls.Pairwise fun a b => a.2 ≤ b.2) →
    CreditsInv (vs.processSlots calls) (historyFrom vs h calls)
  | _, _, [], hi, _, _, _ => hi
  | vs, h, call :: calls, hi, hslots, hepochs, hmono => by
    obtain ⟨hle, hmono⟩ := pairwise_cons.mp hmono
    obtain ⟨hi', hcur⟩ := hi.processSlot (hslots call mem_cons_self) (hepochs call mem_cons_self)
    exact CreditsInv.processSlots calls hi' (fun c hc => hslots c (mem_cons_of_mem _ hc))
      (fun c hc => hcur.trans (hle c hc)) hmono

/-- **Credits account for rooted votes.**  On every run of votes with non-decreasing epochs from an
empty state, the credits are the number of votes popped from the front as roots, the root being the
last of them.  The slots ever pushed are distinct, and each is on the stack, was rooted, or was
popped from the back by a slot after its lockout.  The table of credits stays bounded, its epochs
increase, and each entry starts where the one before ends. -/
theorem processSlots_credits {vs : VoteState} (hvotes : vs.votes = []) (hroot : vs.rootSlot = none)
    (hcredits : vs.epochCredits = []) (calls : List (Nat × Nat))
    (hslots : ∀ call ∈ calls, call.1 < U64) (hepochs : calls.Pairwise fun a b => a.2 ≤ b.2) :
    (vs.processSlots calls).credits = (history vs calls).rooted.length ∧
    (vs.processSlots calls).rootSlot = (history vs calls).rooted.getLast? ∧
    (history vs calls).pushed.Nodup ∧
    (history vs calls).pushed.Perm ((vs.processSlots calls).votes.map (·.slot) ++
      (history vs calls).rooted ++ (history vs calls).expired.map (·.1.slot)) ∧
    (∀ p ∈ (history vs calls).expired, p.1.expirationSlot < p.2) ∧
    (vs.processSlots calls).epochCredits.length ≤ MAX_EPOCH_CREDITS_HISTORY ∧
    ((vs.processSlots calls).epochCredits.Pairwise fun a b => a.epoch < b.epoch) ∧
    (∀ e ∈ (vs.processSlots calls).epochCredits, e.prevCredits ≤ e.credits) ∧
    ((vs.processSlots calls).epochCredits.IsChain fun a b => b.prevCredits = a.credits) := by
  have hcur : vs.currentEpoch = 0 := by simp [currentEpoch, hcredits]
  have hi := (CreditsInv.empty hvotes hroot hcredits).processSlots calls hslots
    (fun call _ => by omega) hepochs
  exact ⟨hi.credits, hi.root, hi.pushed.imp fun hlt => Nat.ne_of_lt hlt, hi.votes, hi.expired,
    hi.table.length_le, hi.table.epochs, hi.table.grows, hi.table.linked⟩

/-- Consecutive votes for 33 slots root the first two of them, here in two epochs. -/
theorem processSlots_credits_default :
    default.epochCredits = [] ∧
    (history default ((List.range 33).map fun s => (s, s / 32))).rooted = [0, 1] ∧
    (default.processSlots ((List.range 33).map fun s => (s, s / 32))).credits = 2 := by
  have hrooted : (history default ((List.range 33).map fun s => (s, s / 32))).rooted =
      [0, 1] := by decide +kernel
  refine ⟨rfl, hrooted, ?_⟩
  rw [(processSlots_credits rfl rfl rfl ((List.range 33).map fun s => (s, s / 32)) (by decide)
    (by decide)).1, hrooted]
  rfl

end Panoptes.VoteProgram
