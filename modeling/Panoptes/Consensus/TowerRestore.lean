import Panoptes.Consensus.Tower
import Panoptes.Sdk.SlotHistory

/-!
# Restoring a tower

After a restart the saved tower is adjusted to the ledger that was replayed
(`adjust_lockouts_after_replay` of `core/src/consensus.rs`): the votes that the ledger's slot
history contains are dropped, and those on slots it does not know are kept.

* `scanSlot` — one step of the scan over the slots of the tower, newest first.  The anchor is the
  first slot that the history contains; a vote is retained if it comes before.
* `Scanned` — what the scan has established; `Restored` — what it leaves of the tower.

Principal result: `adjustLockoutsAfterReplay_exact`.
-/

set_option autoImplicit false

namespace Panoptes.Consensus

open Lib Sdk VoteProgram List

def defaultVote : Vote := ⟨[], 0, none⟩

/-- A tower with the field that restarts use. -/
structure RestoredTower extends Tower where
  strayRestoredSlot : Option Nat

inductive TowerError where
  | tooOldTower (lastVotedSlot oldest : Nat)
  | fatallyInconsistent (msg : String)
  deriving DecidableEq, Repr

structure Scan where
  stillInFuture : Bool
  pastOutsideHistory : Bool
  checkedSlot : Option Nat
  anchoredSlot : Option Nat
  retainFlags : List Bool

def fatal {α : Type} (msg : String) : Res TowerError α := .error (.error (.fatallyInconsistent msg))

/-- A flag that is set when `cond` holds first, after which `cond` has to stay. -/
def latch (flag : Bool) (cond : Prop) [Decidable cond] (msg : String) : Res TowerError Bool :=
  if ¬ flag ∧ cond then .ok true
  else if flag ∧ ¬ cond then fatal msg
  else .ok flag

/-- The anchor is the first slot that is found, and the slots below it must not be missing. -/
def anchorAt (anchoredSlot : Option Nat) (slot : Nat) (check : SlotHistory.Check) :
    Res TowerError (Option Nat) :=
  if anchoredSlot = none ∧ check = .found then .ok (some slot)
  else if anchoredSlot ≠ none ∧ check = .notFound then fatal "diverged ancestor?"
  else .ok anchoredSlot

/-- The body of the loop of `adjust_lockouts_with_slot_history`. -/
def scanSlot (history : SlotHistory) (towerRoot : Nat) (scan : Scan) (slot : Nat) :
    Res TowerError Scan := do
  let check := history.check slot
  let anchoredSlot ← anchorAt scan.anchoredSlot slot check
  let leftFuture ← latch (!scan.stillInFuture) (check ≠ .future) "time warped?"
  let pastOutsideHistory ← latch scan.pastOutsideHistory (check = .tooOld)
    "not too old once after got too old?"
  -- only the root may repeat, when there is a vote for it
  let _ ← liftPanic
    (assert (∀ checked ∈ scan.checkedSlot, slot = checked ∧ slot = towerRoot ∨ slot < checked))
  .ok ⟨!leftFuture, pastOutsideHistory, some slot, anchoredSlot,
    scan.retainFlags ++ [anchoredSlot.isNone]⟩

/-- `votes.retain(|_| flags.next().unwrap())`. -/
def retainFlagged : List Lockout → List Bool → Except Panic (List Lockout)
  | [], _ => .ok []
  | _ :: _, [] => .error .unwrapNone
  | vote :: votes, flag :: flags => do
    let retained ← retainFlagged votes flags
    .ok (if flag then vote :: retained else retained)

namespace RestoredTower

def adjustLockoutsWithSlotHistory (t : RestoredTower) (history : SlotHistory) :
    Res TowerError RestoredTower := do
  let towerRoot ← liftPanic t.root
  let slotsInTower := towerRoot :: t.lockouts.votes.map (·.slot)
  let scan ← slotsInTower.reverse.foldlM (scanSlot history towerRoot) ⟨true, false, none, none, []⟩
  if scan.anchoredSlot = none then fatal "no common slot for rooted tower"
  else do
    let _ ← liftPanic (assert (slotsInTower.length = scan.retainFlags.length))
    -- the flag of the root is popped
    let votes ← liftPanic (retainFlagged t.lockouts.votes scan.retainFlags.dropLast.reverse)
    let lockouts := { t.lockouts with votes }
    if votes = [] then .ok ⟨⟨lockouts, defaultVote⟩, t.strayRestoredSlot⟩
    else do
      let last ← liftPanic (unwrap t.lastVotedSlot)
      let lastRetained ← liftPanic (unwrap lockouts.lastVotedSlot)
      let _ ← liftPanic (assert (last = lastRetained))
      .ok ⟨⟨lockouts, t.lastVote⟩, some last⟩

def initializeRoot (t : RestoredTower) (root : Nat) : RestoredTower :=
  ⟨⟨{ t.lockouts with rootSlot := some root }, t.lastVote⟩, t.strayRestoredSlot⟩

def adjustLockoutsAfterReplay (t : RestoredTower) (replayedRoot : Nat) (history : SlotHistory) :
    Res TowerError RestoredTower := do
  let towerRoot ← liftPanic t.root
  let _ ← liftPanic (assert (history.check replayedRoot = .found))
  let _ ← liftPanic (assert (t.lastVote = defaultVote ∧ t.lockouts.votes = []
    ∨ t.lastVote ≠ defaultVote ∧ t.lockouts.votes ≠ []))
  match t.lastVotedSlot with
  | some last =>
    if towerRoot ≤ replayedRoot then
      if history.check last = .tooOld then .error (.error (.tooOldTower last history.oldest))
      else do
        let t ← t.adjustLockoutsWithSlotHistory history
        .ok (t.initializeRoot replayedRoot)
    -- the tower is ahead of the ledger: its root is added to the history, and stays
    else t.adjustLockoutsWithSlotHistory (history.add towerRoot)
  | none => do
    let _ ← liftPanic (assert (towerRoot = replayedRoot))
    .ok t

end RestoredTower

/-! ## The scan -/

variable {history : SlotHistory} {root : Nat} {t t' : RestoredTower}

/-- What the scan knows after the slots `done`: the anchor is the newest of them in the history, and
the flags are set for those above it. -/
structure Scanned (history : SlotHistory) (done : List Nat) (scan : Scan) : Prop where
  checked : scan.checkedSlot = done.getLast?
  none_found : scan.anchoredSlot = none → ∀ s ∈ done, history.check s ≠ .found
  anchor : ∀ a, scan.anchoredSlot = some a →
    a ∈ done ∧ history.check a = .found ∧ ∀ s ∈ done, a < s → history.check s ≠ .found
  flags : scan.retainFlags = done.map fun s => decide (∀ a ∈ scan.anchoredSlot, a < s)

def IsTowerError : Fault TowerError → Prop := fun fault => ∀ p, fault ≠ .panic p

theorem latch_returns (flag : Bool) (cond : Prop) [Decidable cond] (msg : String) :
    Returns (latch flag cond msg) (fun _ => True) IsTowerError := by
  unfold latch
  split_ifs <;> simp [Returns, fatal, IsTowerError]

theorem anchorAt_returns (anchoredSlot : Option Nat) (slot : Nat) (check : SlotHistory.Check) :
    Returns (anchorAt anchoredSlot slot check)
      (fun anchored => anchoredSlot = none ∧ check = .found ∧ anchored = some slot
        ∨ anchored = anchoredSlot ∧ ¬ (anchoredSlot = none ∧ check = .found)) IsTowerError := by
  unfold anchorAt
  split_ifs <;> simp_all [Returns, fatal, IsTowerError]

/-- Going down from the newest slot, a slot is older than those before it, or it is the root
again. -/
def Descends (root : Nat) (slots : List Nat) : Prop :=
  slots.Pairwise fun newer older => older = newer ∧ older = root ∨ older < newer

theorem scanSlot_returns {done rest : List Nat} {scan : Scan} {slot : Nat}
    (hdesc : Descends root (done ++ slot :: rest)) (h : Scanned history done scan) :
    Returns (scanSlot history root scan slot) (Scanned history (done ++ [slot])) IsTowerError := by
  have hbelow : ∀ s ∈ done, slot = s ∧ slot = root ∨ slot < s := fun s hs =>
    (pairwise_append.mp hdesc).2.2 s hs slot mem_cons_self
  have hassert : ∀ checked ∈ scan.checkedSlot, slot = checked ∧ slot = root ∨ slot < checked := by
    intro checked hchecked
    rw [h.checked] at hchecked
    exact hbelow checked (mem_of_getLast? hchecked)
  refine (anchorAt_returns _ _ _).bind fun anchored hanchored => ?_
  refine (latch_returns _ _ _).bind fun leftFuture _ => ?_
  refine (latch_returns _ _ _).bind fun pastOutsideHistory _ => ?_
  rw [assert_pos hassert]
  rcases hanchored with ⟨hnone, hfound, rfl⟩ | ⟨rfl, hold⟩
  · -- the slot becomes the anchor: those above it are not in the history
    have hnot := h.none_found hnone
    have habove : ∀ s ∈ done, slot < s := by
      intro s hs
      rcases hbelow s hs with ⟨rfl, -⟩ | hlt
      · exact absurd hfound (hnot slot hs)
      · exact hlt
    refine ⟨getLast?_concat.symm, (by rintro ⟨⟩), ?_, ?_⟩
    · rintro a ⟨⟩
      exact ⟨mem_concat_self, hfound, forall_mem_concat.mpr
        ⟨fun s hs _ => hnot s hs, fun hlt => absurd hlt (lt_irrefl _)⟩⟩
    · simp only [h.flags, hnone, map_append]
      congr 1
      · refine map_congr_left fun s hs => ?_
        simp [habove s hs]
      · simp
  · refine ⟨getLast?_concat.symm, fun hnone s hs => ?_, fun a ha => ?_, ?_⟩
    · rcases mem_append.mp hs with hs | hs
      · exact h.none_found hnone s hs
      · simp_all
    · obtain ⟨hmem, hfound, hnot⟩ := h.anchor a ha
      refine ⟨mem_append_left _ hmem, hfound, forall_mem_concat.mpr ⟨hnot, fun hlt => ?_⟩⟩
      have := hbelow a hmem
      omega
    · -- no slot is above an anchor that was found before it
      cases hanchored : scan.anchoredSlot with
      | none => simp [h.flags, hanchored]
      | some a =>
        have := hbelow a (h.anchor a hanchored).1
        simp [h.flags, hanchored]
        omega

theorem scan_returns {slots : List Nat} (hdesc : Descends root slots) :
    Returns (slots.foldlM (scanSlot history root) ⟨true, false, none, none, []⟩)
      (Scanned history slots) IsTowerError := by
  refine Returns.foldlM slots [] ?_ ?_
  · exact ⟨rfl, fun _ _ hs => (not_mem_nil hs).elim, (by rintro _ ⟨⟩), rfl⟩
  intro done slot rest scan hsplit h
  rw [nil_append] at hsplit
  rw [hsplit] at hdesc
  exact scanSlot_returns hdesc h

theorem retainFlagged_map (votes : List Lockout) (keep : Lockout → Bool) :
    retainFlagged votes (votes.map keep) = .ok (votes.filter keep) := by
  induction votes with
  | nil => rfl
  | cons vote votes ih =>
    rw [map_cons, retainFlagged, ih, ok_bind, filter_cons]

/-! ## What is left of the tower -/

/-- A tower as it is saved: the votes increase from the root on, and the last vote is that of the
stack. -/
structure Saved (t : RestoredTower) (root : Nat) : Prop where
  root_eq : t.lockouts.rootSlot = some root
  slots : t.lockouts.votes.Pairwise fun v w => v.slot < w.slot
  root_le : ∀ v ∈ t.lockouts.votes, root ≤ v.slot
  last : t.lastVotedSlot = t.lockouts.lastVotedSlot
  no_votes : t.lockouts.votes = [] → t.lastVote = defaultVote

/-- The votes of `t'` are those of `t` above the newest slot of the tower that the history contains,
and its root is `newRoot`. -/
structure Restored (t : RestoredTower) (root : Nat) (history : SlotHistory) (newRoot : Nat)
    (t' : RestoredTower) : Prop where
  votes : ∃ anchor ∈ root :: t.lockouts.votes.map (·.slot), history.check anchor = .found ∧
    (∀ s ∈ root :: t.lockouts.votes.map (·.slot), history.check s = .found → s ≤ anchor) ∧
    t'.lockouts.votes = t.lockouts.votes.filter fun v => decide (anchor < v.slot)
  suffix : t'.lockouts.votes <:+ t.lockouts.votes
  not_found : ∀ v ∈ t'.lockouts.votes, history.check v.slot ≠ .found
  reset : t'.lastVote = defaultVote ↔ t'.lockouts.votes = []
  last : t'.lockouts.votes ≠ [] → t'.lastVote = t.lastVote ∧
    t'.lastVotedSlot = t'.lockouts.lastVotedSlot
  root_eq : t'.lockouts.rootSlot = some newRoot

theorem filter_above_suffix {votes : List Lockout} (h : votes.Pairwise fun v w => v.slot < w.slot)
    (anchor : Nat) : (votes.filter fun v => decide (anchor < v.slot)) <:+ votes := by
  induction votes with
  | nil => exact suffix_rfl
  | cons v votes ih =>
    obtain ⟨hv, hvotes⟩ := pairwise_cons.mp h
    by_cases habove : anchor < v.slot
    · -- all later votes are above it as well
      rw [filter_eq_self.mpr]
      intro w hw
      rcases mem_cons.mp hw with rfl | hw
      · exact decide_eq_true habove
      · exact decide_eq_true (habove.trans (hv w hw))
    · rw [filter_cons_of_neg (by simpa using habove)]
      exact (ih hvotes).trans (suffix_cons v votes)

theorem Saved.descends (h : Saved t root) :
    Descends root (root :: t.lockouts.votes.map (·.slot)).reverse := by
  rw [Descends, pairwise_reverse, pairwise_cons]
  refine ⟨fun s hs => ?_, pairwise_map.mpr (h.slots.imp fun hlt => .inr hlt)⟩
  obtain ⟨v, hv, rfl⟩ := mem_map.mp hs
  rcases Nat.eq_or_lt_of_le (h.root_le v hv) with heq | hlt
  · exact .inl ⟨heq, rfl⟩
  · exact .inr hlt

theorem lastVotedSlot_of_suffix {vs : VoteState} {votes : List Lockout} (h : votes <:+ vs.votes)
    (hne : votes ≠ []) : { vs with votes }.lastVotedSlot = vs.lastVotedSlot := by
  obtain ⟨dropped, hsplit⟩ := h
  rw [VoteState.lastVotedSlot, VoteState.lastVotedSlot, VoteState.lastLockout,
    VoteState.lastLockout, ← hsplit,
    getLast?_append_of_ne_nil _ hne]

theorem Saved.voted (h : Saved t root) (hne : t.lockouts.votes ≠ []) :
    ∃ last, t.lastVotedSlot = some last ∧ t.lockouts.lastVotedSlot = some last ∧
      t.lastVote ≠ defaultVote := by
  have hlast : t.lockouts.lastVotedSlot = some (t.lockouts.votes.getLast hne).slot := by
    rw [VoteState.lastVotedSlot, VoteState.lastLockout, getLast?_eq_some_getLast hne,
      Option.map_some]
  refine ⟨_, h.last.trans hlast, hlast, fun hdefault => ?_⟩
  have hnone : t.lastVotedSlot = none := by rw [Tower.lastVotedSlot, hdefault]; rfl
  cases hnone.symm.trans (h.last.trans hlast)

theorem Saved.adjustLockoutsWithSlotHistory (h : Saved t root) (history : SlotHistory) :
    Returns (t.adjustLockoutsWithSlotHistory history) (Restored t root history root)
      IsTowerError := by
  have hroot : t.root = .ok root := by rw [Tower.root, h.root_eq, unwrap_some]
  unfold RestoredTower.adjustLockoutsWithSlotHistory
  rw [hroot]
  refine (scan_returns h.descends).bind fun scan hscan => ?_
  split
  · simp [Returns, fatal, IsTowerError]
  rename_i hanchored
  obtain ⟨anchor, hanchor⟩ := Option.ne_none_iff_exists'.mp hanchored
  obtain ⟨hmem, hfound, habove⟩ := hscan.anchor anchor hanchor
  have hflags := hscan.flags
  rw [hanchor] at hflags
  have hkept : scan.retainFlags.dropLast.reverse = t.lockouts.votes.map fun v =>
      decide (anchor < v.slot) := by
    rw [hflags, reverse_cons, map_append, map_singleton, dropLast_concat, ← map_reverse,
      reverse_reverse]
    simp
  rw [assert_pos (by rw [hflags, length_map, length_reverse]), liftPanic_ok, ok_bind, hkept,
    retainFlagged_map, liftPanic_ok, ok_bind]
  have hmax : ∀ s ∈ root :: t.lockouts.votes.map (·.slot), history.check s = .found →
      s ≤ anchor := fun s hs hs' =>
    Nat.le_of_not_lt fun hlt => habove s (mem_reverse.mpr hs) hlt hs'
  have hsuffix := filter_above_suffix h.slots anchor
  have hnot : ∀ v ∈ t.lockouts.votes.filter (fun v => decide (anchor < v.slot)),
      history.check v.slot ≠ .found := by
    intro v hv hv'
    obtain ⟨hv, hlt⟩ := mem_filter.mp hv
    have := hmax v.slot (mem_cons_of_mem _ (mem_map_of_mem hv)) hv'
    exact absurd (of_decide_eq_true hlt) (Nat.not_lt.mpr this)
  split
  · rename_i hnil
    exact ⟨⟨anchor, mem_reverse.mp hmem, hfound, hmax, rfl⟩, hsuffix, hnot, iff_of_true rfl hnil,
      fun hne => absurd hnil hne, h.root_eq⟩
  · rename_i hne
    have hlast := lastVotedSlot_of_suffix hsuffix hne
    obtain ⟨last, hvoted, hvotes, hlastVote⟩ := h.voted fun hnil => hne (by rw [hnil, filter_nil])
    dsimp only
    rw [hvoted, hlast, hvotes, unwrap_some, liftPanic_ok, ok_bind, ok_bind, assert_pos rfl]
    exact ⟨⟨anchor, mem_reverse.mp hmem, hfound, hmax, rfl⟩, hsuffix, hnot,
      iff_of_false hlastVote hne,
      fun _ => ⟨rfl, h.last.trans hlast.symm⟩, h.root_eq⟩

/-- What a successful adjustment leaves, once the tower's root is where the ledger's is. -/
theorem Saved.adjustLockoutsAfterReplay (h : Saved t root) {replayedRoot : Nat}
    (hreplayed : history.check replayedRoot = .found)
    (hnew : t.lockouts.votes = [] → root = replayedRoot) :
    Returns (t.adjustLockoutsAfterReplay replayedRoot history)
      (Restored t root (if root ≤ replayedRoot then history else history.add root)
        (if root ≤ replayedRoot then replayedRoot else root)) IsTowerError := by
  have hroot : t.root = .ok root := by rw [Tower.root, h.root_eq, unwrap_some]
  unfold RestoredTower.adjustLockoutsAfterReplay
  rw [hroot, liftPanic_ok, assert_pos hreplayed, ok_bind]
  by_cases hvotes : t.lockouts.votes = []
  · have hlast : t.lastVotedSlot = none := by rw [Tower.lastVotedSlot, h.no_votes hvotes]; rfl
    obtain rfl := hnew hvotes
    rw [assert_pos (.inl ⟨h.no_votes hvotes, hvotes⟩), hlast, if_pos le_rfl, if_pos le_rfl]
    rw [assert_pos rfl]
    refine ⟨⟨root, mem_cons_self, hreplayed, ?_, ?_⟩, suffix_rfl, ?_, ?_,
      fun hne => absurd hvotes hne,
      h.root_eq⟩
    · intro s hs _
      rw [hvotes, map_nil, mem_singleton] at hs
      exact hs.le
    · rw [hvotes, filter_nil]
    · rw [hvotes]
      exact fun v hv => (not_mem_nil hv).elim
    · exact iff_of_true (h.no_votes hvotes) hvotes
  · obtain ⟨last, hlast, -, hlastVote⟩ := h.voted hvotes
    rw [assert_pos (.inr ⟨hlastVote, hvotes⟩), hlast]
    dsimp only
    by_cases hle : root ≤ replayedRoot
    · rw [if_pos hle]
      split
      · intro p hp
        cases hp
      · refine (h.adjustLockoutsWithSlotHistory history).bind fun t' hrestored => ?_
        exact { hrestored with root_eq := rfl }
    · rw [if_neg hle, if_neg hle, if_neg hle]
      exact h.adjustLockoutsWithSlotHistory _

/-- **Restoring a tower keeps exactly the votes newer than the ledger.** -/
theorem adjustLockoutsAfterReplay_exact (t : RestoredTower) (root replayedRoot : Nat)
    (history : SlotHistory) (h : Saved t root) (hreplayed : history.check replayedRoot = .found)
    (hnew : t.lockouts.votes = [] → root = replayedRoot) :
    NoPanic (t.adjustLockoutsAfterReplay replayedRoot history) ∧
    ∀ t', t.adjustLockoutsAfterReplay replayedRoot history = .ok t' →
      Restored t root (if root ≤ replayedRoot then history else history.add root)
        (if root ≤ replayedRoot then replayedRoot else root) t' := by
  have hreturns := h.adjustLockoutsAfterReplay hreplayed hnew
  exact ⟨noPanic_iff.mpr (hreturns.imp fun _ _ => trivial), fun t' ht' => hreturns.of_ok ht'⟩

/-- A tower with votes for the slots 1 and 5, and a ledger that has slot 1 only. -/
def restoredTwo : RestoredTower :=
  ⟨⟨{ Tower.default.lockouts with votes := [⟨1, 2⟩, ⟨5, 1⟩] }, Vote.new [1, 5] 0⟩, none⟩

theorem adjustLockoutsAfterReplay_exact_restoredTwo :
    Saved restoredTwo 0 ∧ (SlotHistory.default.add 1).check 1 = .found ∧
    ∃ t', restoredTwo.adjustLockoutsAfterReplay 1 (SlotHistory.default.add 1) = .ok t' ∧
      t'.lockouts.votes = [⟨5, 1⟩] ∧ t'.lastVote = restoredTwo.lastVote ∧
        t'.lockouts.rootSlot = some 1 := by
  have hsaved : Saved restoredTwo 0 := ⟨rfl, by decide, by decide, rfl, by rintro ⟨⟩⟩
  have hfound : (SlotHistory.default.add 1).check 1 = .found := by decide +kernel
  have hrun : (restoredTwo.adjustLockoutsAfterReplay 1 (SlotHistory.default.add 1)).toOption.map
      (fun t' => t'.lockouts.votes) = some [⟨5, 1⟩] := by decide +kernel
  have hexact := (adjustLockoutsAfterReplay_exact restoredTwo 0 1 _ hsaved hfound (by rintro ⟨⟩)).2
  cases h : restoredTwo.adjustLockoutsAfterReplay 1 (SlotHistory.default.add 1) with
  | error =>
    rw [h] at hrun
    cases hrun
  | ok t' =>
    rw [h] at hrun
    have hvotes : t'.lockouts.votes = [⟨5, 1⟩] := Option.some.inj hrun
    have hrestored := hexact t' h
    exact ⟨hsaved, hfound, t', rfl, hvotes, (hrestored.last (by rw [hvotes]; simp)).1,
      hrestored.root_eq⟩

/-- A new tower whose root is not the replayed one fails an assertion. -/
theorem adjustLockoutsAfterReplay_newTower :
    Saved ⟨Tower.default, none⟩ 0 ∧ (SlotHistory.default.add 1).check 1 = .found ∧
    RestoredTower.adjustLockoutsAfterReplay ⟨Tower.default, none⟩ 1 (SlotHistory.default.add 1)
      = .error (.panic .assertion) := by
  have hfound : (SlotHistory.default.add 1).check 1 = .found := by decide +kernel
  refine ⟨⟨rfl, .nil, by simp, rfl, fun _ => rfl⟩, hfound, ?_⟩
  unfold RestoredTower.adjustLockoutsAfterReplay
  rw [assert_pos hfound]
  rfl

end Panoptes.Consensus
