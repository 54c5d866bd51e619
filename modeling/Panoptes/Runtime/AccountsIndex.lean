import Panoptes.Sdk.Account

/-!
# The accounts index

`runtime/src/accounts_index.rs`: for each address the slots at which the account was written, with
where it was written, and how many slots refer to it from storage.  The index is generic in what it
says about a place.

Readers see the slots of their ancestors and the roots, up to a bound; cleaning drops what is older
than the newest root of an address.  The secondary indexes are fed next to this one and are read by
nothing here.  A reference count is a `u64`; that it is counted past `u64::MAX` is left out, that it
is taken below 0 is not.

* `update`, `upsert`, `purgeExact`, `cleanRootedEntries`, `cleanUnrootedEntriesBySlot` — the calls
  that change lists.
* `latestSlot`, `get` — the newest visible entry.
* `OneEntryPerSlot`, `update_eq` — what an update does to a list with one entry for each slot.
* `find_eq_some_iff` — `get` finds the visible entry with the greatest slot.
* `IndexRun`, `indexRun_newestVisible` — the index along every run.
-/

set_option autoImplicit false

namespace Panoptes.Runtime

open Lib Sdk List
open Std (ExtTreeMap ExtTreeSet)

abbrev SlotList (T : Type) := List (Nat × T)

structure AccountMapEntry (T : Type) where
  refCount : Nat
  slotList : SlotList T

structure RootsTracker where
  roots : ExtTreeSet Nat
  maxRoot : Nat
  uncleanedRoots : ExtTreeSet Nat
  previousUncleanedRoots : ExtTreeSet Nat

structure AccountsIndex (T : Type) where
  accountMaps : ExtTreeMap Pubkey (AccountMapEntry T)
  rootsTracker : RootsTracker

/-- `n - 1` on a `u64` in a release build. -/
def predU64 (n : Nat) : Nat := if n = 0 then U64 - 1 else n - 1

/-- `WriteAccountMapEntry::update`, with what it pushes to `reclaims`. -/
def AccountMapEntry.update {T : Type} (e : AccountMapEntry T) (slot : Nat) (accountInfo : T) :
    Except Panic (AccountMapEntry T × SlotList T) := do
  let sameSlotPreviousUpdates := e.slotList.zipIdx.filter fun item => item.1.1 = slot
  let _ ← assert (sameSlotPreviousUpdates.length ≤ 1)
  match sameSlotPreviousUpdates.getLast? with
  | some (previous, listIndex) =>
    .ok (⟨e.refCount, e.slotList.eraseIdx listIndex ++ [(slot, accountInfo)]⟩, [previous])
  | none => .ok (⟨wrapAdd e.refCount 1, e.slotList ++ [(slot, accountInfo)]⟩, [])

namespace AccountsIndex

variable {T : Type} {l : SlotList T} {slot : Nat} {ancestors : Option (List Nat)}
  {maxRoot : Option Nat} {pubkey : Pubkey}

def new : AccountsIndex T := ⟨∅, ⟨∅, 0, ∅, ∅⟩⟩

/-! ## Roots -/

variable (index : AccountsIndex T)

def isRoot (slot : Nat) : Bool := index.rootsTracker.roots.contains slot

def addRoot (slot : Nat) : AccountsIndex T :=
  let tracker := index.rootsTracker
  { index with rootsTracker :=
      { tracker with
        roots := tracker.roots.insert slot
        uncleanedRoots := tracker.uncleanedRoots.insert slot
        maxRoot := max slot tracker.maxRoot } }

/-! ## Reading -/

section

variable (pubkey : Pubkey) (ancestors : Option (List Nat)) (maxRoot : Option Nat)

def isAncestorOrRoot (slot : Nat) (ancestors : Option (List Nat)) (maxRoot : Option Nat) :
    Bool :=
  ancestors.any (fun ancestors => decide (slot ∈ ancestors)) ||
    (maxRoot.all (fun maxRoot => decide (slot ≤ maxRoot)) && index.isRoot slot)

/-- `latest_slot`: a position of the list. -/
def latestSlot (slice : SlotList T) (maxRoot : Option Nat) : Option Nat :=
  (slice.reverse.zipIdx.foldl (fun (acc : Nat × Option Nat) item =>
    if acc.1 ≤ item.1.1 ∧ index.isAncestorOrRoot item.1.1 ancestors maxRoot then
      (item.1.1, some (slice.length - 1 - item.2))
    else acc) (0, none)).2

def get : Option (AccountMapEntry T × Nat) := do
  let lockedEntry ← index.accountMaps[pubkey]?
  let foundIndex ← index.latestSlot ancestors lockedEntry.slotList maxRoot
  some (lockedEntry, foundIndex)

def find : Option (Nat × T) := do
  let (lockedEntry, foundIndex) ← index.get pubkey ancestors maxRoot
  lockedEntry.slotList[foundIndex]?

end

/-! ## Writing -/

section

variable (slot : Nat) (pubkey : Pubkey) (e : AccountMapEntry T)

def setEntry : AccountsIndex T :=
  { index with accountMaps := index.accountMaps.insert pubkey e }

/-- `get_account_write_entry_else_create`. -/
def entryElseCreate : AccountMapEntry T :=
  index.accountMaps[pubkey]?.getD ⟨0, []⟩

/-- `upsert`, with what it pushes to `reclaims`. -/
def upsert (accountInfo : T) : Except Panic (AccountsIndex T × SlotList T) := do
  let (e, reclaims) ← (index.entryElseCreate pubkey).update slot accountInfo
  .ok (index.setEntry pubkey e, reclaims)

def unrefFromStorage : AccountsIndex T :=
  match index.accountMaps[pubkey]? with
  | some e => index.setEntry pubkey { e with refCount := predU64 e.refCount }
  | none => index

/-- Drop the entries of a list for which a condition holds, and return them. -/
def removeIf (dead : Nat → Bool) : AccountsIndex T × SlotList T :=
  (index.setEntry pubkey { e with slotList := e.slotList.filter fun item => !dead item.1 },
    e.slotList.filter fun item => dead item.1)

/-- `purge_exact`: the index, the reclaims and whether the list is empty now. -/
def purgeExact (slots : List Nat) : Except Panic (AccountsIndex T × SlotList T × Bool) := do
  let e ← unwrap index.accountMaps[pubkey]?
  let (index, reclaims) := index.removeIf pubkey e fun slot => decide (slot ∈ slots)
  .ok (index, reclaims, (e.slotList.filter fun item => !decide (item.1 ∈ slots)).isEmpty)

/-- `get_max_root`: the greatest root of a list, up to a bound. -/
def getMaxRoot (roots : ExtTreeSet Nat) (slice : SlotList T) (maxAllowedRoot : Option Nat) : Nat :=
  slice.foldl (fun maxRoot item =>
    if maxAllowedRoot.any fun maxAllowedRoot => decide (item.1 > maxAllowedRoot) then maxRoot
    else if item.1 > maxRoot ∧ roots.contains item.1 then item.1
    else maxRoot) 0

def canPurge (maxRoot slot : Nat) : Bool := slot < maxRoot

/-- `clean_rooted_entries` with `purge_older_root_entries`, and what they push to `reclaims`. -/
def cleanRootedEntries (maxCleanRoot : Option Nat) : AccountsIndex T × SlotList T :=
  match index.accountMaps[pubkey]? with
  | some e =>
    index.removeIf pubkey e (canPurge (getMaxRoot index.rootsTracker.roots e.slotList maxCleanRoot))
  | none => (index, [])

end

/-- `clean_unrooted_entries_by_slot`, with what it pushes to `reclaims`. -/
def cleanUnrootedEntriesBySlot (purgeSlot : Nat) (pubkey : Pubkey) : AccountsIndex T × SlotList T :=
  match index.accountMaps[pubkey]? with
  | some e => index.removeIf pubkey e fun slot => decide (slot = purgeSlot)
  | none => (index, [])

/-! ## Updating a list -/

/-- The list of an address has at most one entry for each slot. -/
def OneEntryPerSlot (l : SlotList T) : Prop := (l.map Prod.fst).Nodup

theorem OneEntryPerSlot.filter (h : OneEntryPerSlot l) (keep : Nat × T → Bool) :
    OneEntryPerSlot (l.filter keep) :=
  h.sublist (filter_sublist.map _)

theorem OneEntryPerSlot.eq_of_mem (h : OneEntryPerSlot l) {t t' : T} (ht : (slot, t) ∈ l)
    (ht' : (slot, t') ∈ l) : t = t' :=
  (Prod.mk.inj (inj_on_of_nodup_map h ht ht' rfl)).2

section

variable (h : slot ∉ l.map Prod.fst)
include h

theorem filter_ne_slot_of_notMem : (l.filter fun item => !decide (item.1 = slot)) = l := by
  rw [filter_eq_self]
  intro item hitem
  have hne : item.1 ≠ slot := fun heq => h (heq ▸ mem_map_of_mem hitem)
  simp [hne]

theorem filter_slot_of_notMem : (l.filter fun item => decide (item.1 = slot)) = [] := by
  rw [filter_eq_nil_iff]
  intro item hitem heq
  exact h (of_decide_eq_true heq ▸ mem_map_of_mem hitem)

theorem filter_zipIdx_of_notMem (start : Nat) :
    ((l.zipIdx start).filter fun item => item.1.1 = slot) = [] := by
  rw [filter_eq_nil_iff]
  rintro ⟨item, i⟩ hitem heq
  refine h (mem_map.mpr ⟨item, ?_, of_decide_eq_true heq⟩)
  exact fst_mem_of_mem_zipIdx hitem

end

/-- **An update** puts the new entry at the end and takes the old one of the slot out; the reference
count grows if there is none. -/
theorem update_eq {e : AccountMapEntry T} (h : OneEntryPerSlot e.slotList) (slot : Nat)
    (accountInfo : T) : e.update slot accountInfo = .ok
      (⟨if slot ∈ e.slotList.map Prod.fst then e.refCount else wrapAdd e.refCount 1,
        (e.slotList.filter fun item => !decide (item.1 = slot)) ++ [(slot, accountInfo)]⟩,
       e.slotList.filter fun item => decide (item.1 = slot)) := by
  by_cases hmem : slot ∈ e.slotList.map Prod.fst
  · -- the list has one entry of the slot, at some position
    obtain ⟨⟨s, t⟩, ht, rfl⟩ := mem_map.mp hmem
    obtain ⟨pre, post, hsplit⟩ := append_of_mem ht
    have hnodup : ((pre ++ (s, t) :: post).map Prod.fst).Nodup := hsplit ▸ h
    rw [map_append, nodup_append] at hnodup
    have hpre : s ∉ pre.map Prod.fst := fun hs => hnodup.2.2 s hs s mem_cons_self rfl
    have hpost : s ∉ post.map Prod.fst := (nodup_cons.mp hnodup.2.1).1
    have hfilter : ((e.slotList.zipIdx).filter fun item => item.1.1 = s) =
        [((s, t), pre.length)] := by
      rw [hsplit, zipIdx_append, filter_append, filter_zipIdx_of_notMem hpre, zipIdx_cons,
        filter_cons_of_pos (by simp), filter_zipIdx_of_notMem hpost]
      simp
    have herase : (pre ++ (s, t) :: post).eraseIdx pre.length = pre ++ post := by
      rw [eraseIdx_append_of_length_le (le_refl _), Nat.sub_self, eraseIdx_cons_zero]
    unfold AccountMapEntry.update
    rw [hfilter, if_pos hmem, hsplit, filter_append, filter_append, filter_ne_slot_of_notMem hpre,
      filter_slot_of_notMem hpre, filter_cons_of_neg (by simp), filter_cons_of_pos (by simp),
      filter_ne_slot_of_notMem hpost, filter_slot_of_notMem hpost, ← herase]
    rfl
  · unfold AccountMapEntry.update
    rw [filter_zipIdx_of_notMem hmem, if_neg hmem, filter_ne_slot_of_notMem hmem,
      filter_slot_of_notMem hmem]
    rfl

/-! ## The newest visible entry -/

section Latest

variable {index : AccountsIndex T}

/-- A reader with these ancestors and this bound on the roots sees a slot. -/
def Visible (index : AccountsIndex T) (ancestors : Option (List Nat)) (maxRoot : Option Nat)
    (slot : Nat) : Prop :=
  (∃ set, ancestors = some set ∧ slot ∈ set) ∨
    (index.isRoot slot = true ∧ ∀ bound, maxRoot = some bound → slot ≤ bound)

theorem isAncestorOrRoot_iff :
    index.isAncestorOrRoot slot ancestors maxRoot = true ↔
      index.Visible ancestors maxRoot slot := by
  unfold isAncestorOrRoot Visible
  cases ancestors <;> cases maxRoot <;> simp [and_comm]

/-- What the walk over a list knows of the items it has passed: nothing visible yet, or the greatest
visible slot. -/
def WalkedTo (index : AccountsIndex T) (ancestors : Option (List Nat))
    (maxRoot : Option Nat) (size : Nat) (passed : SlotList T) (acc : Nat × Option Nat) : Prop :=
  (acc = (0, none) ∧ ∀ item ∈ passed, ¬ index.Visible ancestors maxRoot item.1) ∨
    ∃ i item, passed[i]? = some item ∧ acc = (item.1, some (size - 1 - i)) ∧
      index.Visible ancestors maxRoot item.1 ∧
      ∀ item' ∈ passed, index.Visible ancestors maxRoot item'.1 → item'.1 ≤ item.1

section

variable (index : AccountsIndex T) (ancestors : Option (List Nat)) (maxRoot : Option Nat)

theorem walkedTo_foldl (size : Nat)
    (l : SlotList T) :
    index.WalkedTo ancestors maxRoot size l (l.zipIdx.foldl (fun (acc : Nat × Option Nat) item =>
      if acc.1 ≤ item.1.1 ∧ index.isAncestorOrRoot item.1.1 ancestors maxRoot then
        (item.1.1, some (size - 1 - item.2))
      else acc) (0, none)) := by
  induction l using List.reverseRecOn with
  | nil => exact .inl ⟨rfl, fun _ h => absurd h not_mem_nil⟩
  | append_singleton l a ih =>
    rw [zipIdx_append, foldl_append, zipIdx_singleton, foldl_cons, Nat.zero_add]
    generalize l.zipIdx.foldl _ (0, none) = acc at ih
    have hlast : (l ++ [a])[l.length]? = some a := by simp
    by_cases htake : acc.1 ≤ a.1 ∧ index.isAncestorOrRoot a.1 ancestors maxRoot = true
    · rw [if_pos htake]
      refine .inr ⟨l.length, a, hlast, rfl, isAncestorOrRoot_iff.mp htake.2,
        forall_mem_concat.mpr ⟨fun item hitem hvis => ?_, fun _ => le_rfl⟩⟩
      rcases ih with ⟨_, hnone⟩ | ⟨i, b, hb, hacc, _, hmax⟩
      · exact absurd hvis (hnone item hitem)
      · rw [hacc] at htake
        exact (hmax item hitem hvis).trans htake.1
    · rw [if_neg htake]
      rcases ih with ⟨hacc, hnone⟩ | ⟨i, b, hb, hacc, hvisb, hmax⟩
      · exact .inl ⟨hacc, forall_mem_concat.mpr ⟨hnone, fun hvis =>
          htake ⟨by rw [hacc]; exact Nat.zero_le _, isAncestorOrRoot_iff.mpr hvis⟩⟩⟩
      · refine .inr ⟨i, b, ?_, hacc, hvisb, fun item hitem hvis => ?_⟩
        · rw [List.getElem?_append_left (List.getElem?_eq_some_iff.mp hb).1]
          exact hb
        · rcases List.mem_append.mp hitem with hitem | hitem
          · exact hmax item hitem hvis
          · rw [List.mem_singleton.mp hitem] at hvis ⊢
            by_contra hlt
            refine htake ⟨?_, isAncestorOrRoot_iff.mpr hvis⟩
            rw [hacc]
            omega

/-- The item at the position that `latest_slot` finds is visible, and no visible slot of the list is
greater. -/
theorem latestSlot_spec
    (slice : SlotList T) :
    (index.latestSlot ancestors slice maxRoot = none ∧
      ∀ item ∈ slice, ¬ index.Visible ancestors maxRoot item.1) ∨
      ∃ i item, index.latestSlot ancestors slice maxRoot = some i ∧ slice[i]? = some item ∧
        index.Visible ancestors maxRoot item.1 ∧
        ∀ item' ∈ slice, index.Visible ancestors maxRoot item'.1 → item'.1 ≤ item.1 := by
  have hwalk := walkedTo_foldl index ancestors maxRoot slice.length slice.reverse
  unfold latestSlot
  rcases hwalk with ⟨hacc, hnone⟩ | ⟨i, item, hi, hacc, hvis, hmax⟩
  · rw [hacc]
    exact .inl ⟨rfl, fun item hitem => hnone item (mem_reverse.mpr hitem)⟩
  · rw [hacc]
    refine .inr ⟨slice.length - 1 - i, item, rfl, ?_, hvis, fun item' hitem' =>
      hmax item' (mem_reverse.mpr hitem')⟩
    have hlt : i < slice.length := by
      have := (List.getElem?_eq_some_iff.mp hi).1
      rwa [List.length_reverse] at this
    rwa [List.getElem?_reverse hlt] at hi

end

def slotListOf (index : AccountsIndex T) (pubkey : Pubkey) : SlotList T :=
  (index.entryElseCreate pubkey).slotList

theorem slotListOf_of_some {e : AccountMapEntry T} (h : index.accountMaps[pubkey]? = some e) :
    index.slotListOf pubkey = e.slotList := by
  unfold slotListOf entryElseCreate
  rw [h]
  rfl

theorem slotListOf_of_none (h : index.accountMaps[pubkey]? = none) :
    index.slotListOf pubkey = [] := by
  unfold slotListOf entryElseCreate
  rw [h]
  rfl

/-- **`get` finds the newest visible entry**: the one with the greatest slot among those that the
reader sees. -/
theorem find_eq_some_iff (h : OneEntryPerSlot (index.slotListOf pubkey)) {t : T} :
    index.find pubkey ancestors maxRoot = some (slot, t) ↔
      (slot, t) ∈ index.slotListOf pubkey ∧ index.Visible ancestors maxRoot slot ∧
        ∀ item ∈ index.slotListOf pubkey, index.Visible ancestors maxRoot item.1 →
          item.1 ≤ slot := by
  unfold find get
  cases he : index.accountMaps[pubkey]? with
  | none =>
    rw [slotListOf_of_none he]
    simp
  | some e =>
    rw [slotListOf_of_some he] at h ⊢
    rcases latestSlot_spec index ancestors maxRoot e.slotList with
      ⟨hnone, hno⟩ | ⟨i, item, hsome, hi, hvis, hmax⟩
    · simp only [Option.bind_eq_bind, Option.bind_some, hnone, Option.bind_none,
        reduceCtorEq, false_iff]
      rintro ⟨hmem, hvis, _⟩
      exact hno _ hmem hvis
    · simp only [Option.bind_eq_bind, Option.bind_some, hsome, hi, Option.some.injEq]
      have hmem : item ∈ e.slotList := mem_of_getElem? hi
      constructor
      · rintro rfl
        exact ⟨hmem, hvis, hmax⟩
      · rintro ⟨hmem', hvis', hmax'⟩
        have hslot : item.1 = slot := le_antisymm (hmax' item hmem hvis) (hmax _ hmem' hvis')
        refine Prod.ext hslot ?_
        rw [← hslot] at hmem'
        exact h.eq_of_mem hmem hmem'

end Latest

/-! ## What the calls do to the lists -/

section Writes

variable {index index' : AccountsIndex T} {reclaims : SlotList T} {dead : Nat → Bool}
  {accountInfo : T}

section

variable (index : AccountsIndex T) (pubkey : Pubkey) (e : AccountMapEntry T) (key : Pubkey)

theorem getElem?_setEntry :
    (index.setEntry pubkey e).accountMaps[key]? = if key = pubkey then some e
      else index.accountMaps[key]? :=
  getElem?_insert_ite index.accountMaps pubkey key e

theorem entryElseCreate_setEntry :
    (index.setEntry pubkey e).entryElseCreate key = if key = pubkey then e
      else index.entryElseCreate key := by
  unfold entryElseCreate
  rw [getElem?_setEntry]
  split <;> rfl

theorem slotListOf_setEntry :
    (index.setEntry pubkey e).slotListOf key = if key = pubkey then e.slotList
      else index.slotListOf key := by
  unfold slotListOf
  rw [entryElseCreate_setEntry]
  split <;> rfl

end

/-- The entries of an address for which `dead` holds of the slot are taken out of the index and
reclaimed; nothing else changes. -/
structure Removes (index index' : AccountsIndex T) (pubkey : Pubkey) (dead : Nat → Bool)
    (reclaims : SlotList T) : Prop where
  rootsTracker : index'.rootsTracker = index.rootsTracker
  known : ∀ key : Pubkey, (index'.accountMaps[key]?).isSome = (index.accountMaps[key]?).isSome
  refCount : ∀ key, (index'.entryElseCreate key).refCount = (index.entryElseCreate key).refCount
  others : ∀ key : Pubkey, key ≠ pubkey → index'.accountMaps[key]? = index.accountMaps[key]?
  list : index'.slotListOf pubkey = (index.slotListOf pubkey).filter fun item => !dead item.1
  reclaims : reclaims = (index.slotListOf pubkey).filter fun item => dead item.1

theorem removeIf_removes {e : AccountMapEntry T} (he : index.accountMaps[pubkey]? = some e)
    (dead : Nat → Bool) :
    Removes index (index.removeIf pubkey e dead).1 pubkey dead
      (index.removeIf pubkey e dead).2 := by
  have hentry : index.entryElseCreate pubkey = e := by
    unfold entryElseCreate
    rw [he]
    rfl
  refine ⟨rfl, fun key => ?_, fun key => ?_, fun key hkey => ?_, ?_, ?_⟩
  · rw [removeIf, getElem?_setEntry]
    by_cases hkey : key = pubkey
    · rw [if_pos hkey, hkey, he]
      rfl
    · rw [if_neg hkey]
  · rw [removeIf, entryElseCreate_setEntry]
    by_cases hkey : key = pubkey
    · rw [if_pos hkey, hkey, hentry]
    · rw [if_neg hkey]
  · rw [removeIf, getElem?_setEntry, if_neg hkey]
  · rw [removeIf, slotListOf_setEntry, if_pos rfl, slotListOf_of_some he]
  · rw [removeIf, slotListOf_of_some he]

theorem removes_of_none (h : index.accountMaps[pubkey]? = none) (dead : Nat → Bool) :
    Removes index index pubkey dead [] := by
  refine ⟨rfl, fun _ => rfl, fun _ => rfl, fun _ _ => rfl, ?_, ?_⟩
  · rw [slotListOf_of_none h]
    rfl
  · rw [slotListOf_of_none h]
    rfl

/-- The greatest root of the list of an address, up to a bound. -/
def maxRootOf (index : AccountsIndex T) (pubkey : Pubkey) (maxCleanRoot : Option Nat) : Nat :=
  getMaxRoot index.rootsTracker.roots (index.slotListOf pubkey) maxCleanRoot

theorem cleanRootedEntries_removes (index : AccountsIndex T) (pubkey : Pubkey)
    (maxCleanRoot : Option Nat) :
    Removes index (index.cleanRootedEntries pubkey maxCleanRoot).1 pubkey
      (canPurge (index.maxRootOf pubkey maxCleanRoot))
      (index.cleanRootedEntries pubkey maxCleanRoot).2 := by
  unfold cleanRootedEntries
  cases he : index.accountMaps[pubkey]? with
  | none => exact removes_of_none he _
  | some e =>
    unfold maxRootOf
    rw [slotListOf_of_some he]
    exact removeIf_removes he _

theorem cleanUnrootedEntriesBySlot_removes (index : AccountsIndex T) (purgeSlot : Nat)
    (pubkey : Pubkey) :
    Removes index (index.cleanUnrootedEntriesBySlot purgeSlot pubkey).1 pubkey
      (fun slot => decide (slot = purgeSlot))
      (index.cleanUnrootedEntriesBySlot purgeSlot pubkey).2 := by
  unfold cleanUnrootedEntriesBySlot
  cases he : index.accountMaps[pubkey]? with
  | none => exact removes_of_none he _
  | some e => exact removeIf_removes he _

theorem purgeExact_removes {slots : List Nat} {isEmpty : Bool}
    (h : index.purgeExact pubkey slots = .ok (index', reclaims, isEmpty)) :
    Removes index index' pubkey (fun slot => decide (slot ∈ slots)) reclaims ∧
      isEmpty = (index'.slotListOf pubkey).isEmpty := by
  obtain ⟨e, he, h⟩ := bind_eq_ok.mp h
  cases hget : index.accountMaps[pubkey]? with
  | none =>
    rw [hget] at he
    cases he
  | some e' =>
    rw [hget] at he
    cases he
    cases h
    have hremoves := removeIf_removes hget fun slot => decide (slot ∈ slots)
    refine ⟨hremoves, ?_⟩
    rw [slotListOf_setEntry, if_pos rfl]

theorem slotListOf_congr {key : Pubkey} (h : index'.accountMaps[key]? = index.accountMaps[key]?) :
    index'.slotListOf key = index.slotListOf key := by
  unfold slotListOf entryElseCreate
  rw [h]

section

variable (h : Removes index index' pubkey dead reclaims)
include h

theorem Removes.oneEntryPerSlot (hone : ∀ key, OneEntryPerSlot (index.slotListOf key))
    (key : Pubkey) : OneEntryPerSlot (index'.slotListOf key) := by
  by_cases hkey : key = pubkey
  · rw [hkey, h.list]
    exact (hone pubkey).filter _
  · rw [slotListOf_congr (h.others key hkey)]
    exact hone key

theorem Removes.perm : (index.slotListOf pubkey).Perm (index'.slotListOf pubkey ++ reclaims) := by
  rw [h.list, h.reclaims]
  have hperm := (filter_append_perm (fun item => !dead item.1) (index.slotListOf pubkey)).symm
  simpa only [Bool.not_not] using hperm

theorem Removes.visible_iff :
    index'.Visible ancestors maxRoot slot ↔ index.Visible ancestors maxRoot slot := by
  unfold Visible isRoot
  rw [h.rootsTracker]

/-- Readers do not miss an entry when a newer one that they see stays. -/
theorem Removes.find_eq (hone : ∀ key, OneEntryPerSlot (index.slotListOf key))
    (hnewer : ∀ item ∈ index.slotListOf pubkey, dead item.1 = true →
      ∃ item' ∈ index.slotListOf pubkey, dead item'.1 = false ∧
        index.Visible ancestors maxRoot item'.1 ∧ item.1 < item'.1) (key : Pubkey) :
    index'.find key ancestors maxRoot = index.find key ancestors maxRoot := by
  have hone' := h.oneEntryPerSlot hone
  refine Option.ext fun found => ?_
  obtain ⟨slot, t⟩ := found
  rw [find_eq_some_iff (hone' key), find_eq_some_iff (hone key)]
  simp only [h.visible_iff]
  by_cases hkey : key = pubkey
  · rw [hkey, h.list]
    simp only [mem_filter, Bool.not_eq_true']
    constructor
    · rintro ⟨⟨hmem, _⟩, hvis, hmax⟩
      refine ⟨hmem, hvis, fun item hitem hvis' => ?_⟩
      cases hdead : dead item.1 with
      | false => exact hmax item ⟨hitem, hdead⟩ hvis'
      | true =>
        obtain ⟨item', hitem', hlive, hvis'', hlt⟩ := hnewer item hitem hdead
        exact hlt.le.trans (hmax item' ⟨hitem', hlive⟩ hvis'')
    · rintro ⟨hmem, hvis, hmax⟩
      refine ⟨⟨hmem, ?_⟩, hvis, fun item hitem => hmax item hitem.1⟩
      cases hdead : dead slot with
      | false => rfl
      | true =>
        obtain ⟨item', hitem', _, hvis', hlt⟩ := hnewer _ hmem hdead
        exact absurd (hmax item' hitem' hvis') (Nat.not_le.mpr hlt)
  · rw [slotListOf_congr (h.others key hkey)]

end

/-- `get_max_root` is 0 or a root of the list up to the bound. -/
theorem getMaxRoot_spec (roots : ExtTreeSet Nat) (slice : SlotList T) (bound : Option Nat) :
    (getMaxRoot roots slice bound = 0 ∨ ∃ t, (getMaxRoot roots slice bound, t) ∈ slice ∧
        roots.contains (getMaxRoot roots slice bound) = true ∧
        ∀ b, bound = some b → getMaxRoot roots slice bound ≤ b) ∧
      ∀ item ∈ slice, roots.contains item.1 = true → (∀ b, bound = some b → item.1 ≤ b) →
        item.1 ≤ getMaxRoot roots slice bound := by
  induction slice using List.reverseRecOn with
  | nil => exact ⟨.inl rfl, fun _ h => absurd h not_mem_nil⟩
  | append_singleton l a ih =>
    have hstep : getMaxRoot roots (l ++ [a]) bound
        = if bound.any fun b => decide (a.1 > b) then getMaxRoot roots l bound
          else if a.1 > getMaxRoot roots l bound ∧ roots.contains a.1 then a.1
            else getMaxRoot roots l bound := by
      unfold getMaxRoot
      rw [foldl_append]
      rfl
    have hbound : (bound.any fun b => decide (a.1 > b)) = true ↔
        ¬ ∀ b, bound = some b → a.1 ≤ b := by
      cases bound <;> simp
    have hkeep : getMaxRoot roots l bound = 0 ∨ ∃ t, (getMaxRoot roots l bound, t) ∈ l ++ [a] ∧
        roots.contains (getMaxRoot roots l bound) = true ∧ ∀ b, bound = some b →
          getMaxRoot roots l bound ≤ b := by
      refine ih.1.imp_right ?_
      rintro ⟨t, ht, hrest⟩
      exact ⟨t, mem_append_left _ ht, hrest⟩
    rw [hstep]
    by_cases hskip : (bound.any fun b => decide (a.1 > b)) = true
    · rw [if_pos hskip]
      exact ⟨hkeep, forall_mem_concat.mpr ⟨ih.2, fun _ hle => absurd hle (hbound.mp hskip)⟩⟩
    · rw [if_neg hskip]
      have hle : ∀ b, bound = some b → a.1 ≤ b := not_not.mp (mt hbound.mpr hskip)
      by_cases htake : a.1 > getMaxRoot roots l bound ∧ roots.contains a.1 = true
      · rw [if_pos htake]
        refine ⟨.inr ⟨a.2, mem_append_right _ mem_cons_self, htake.2, hle⟩,
          forall_mem_concat.mpr ⟨fun item hitem hroot hle' => ?_, fun _ _ => le_rfl⟩⟩
        exact (ih.2 item hitem hroot hle').trans htake.1.le
      · rw [if_neg htake]
        refine ⟨hkeep, forall_mem_concat.mpr ⟨ih.2, fun hroot _ => ?_⟩⟩
        by_contra hlt
        exact htake ⟨by omega, hroot⟩

/-- An entry that cleaning drops is older than a root of the list, up to the bound, that stays. -/
theorem exists_root_of_canPurge {maxCleanRoot : Option Nat}
    (h : canPurge (index.maxRootOf pubkey maxCleanRoot) slot = true) :
    ∃ item ∈ index.slotListOf pubkey, canPurge (index.maxRootOf pubkey maxCleanRoot) item.1 =
      false ∧
      index.isRoot item.1 = true ∧ (∀ b, maxCleanRoot = some b → item.1 ≤ b) ∧ slot < item.1 := by
  have hlt : slot < index.maxRootOf pubkey maxCleanRoot := of_decide_eq_true h
  rcases (getMaxRoot_spec index.rootsTracker.roots (index.slotListOf pubkey) maxCleanRoot).1 with
    hzero | ⟨t, ht, hroot, hle⟩
  · unfold maxRootOf at hlt
    omega
  · exact ⟨_, ht, decide_eq_false (lt_irrefl _), hroot, hle, hlt⟩

theorem upsert_eq (h : OneEntryPerSlot (index.slotListOf pubkey)) :
    index.upsert slot pubkey accountInfo = .ok
      (index.setEntry pubkey
        ⟨if slot ∈ (index.slotListOf pubkey).map Prod.fst then
          (index.entryElseCreate pubkey).refCount
          else wrapAdd (index.entryElseCreate pubkey).refCount 1,
          ((index.slotListOf pubkey).filter fun item => !decide (item.1 = slot)) ++
            [(slot, accountInfo)]⟩,
       (index.slotListOf pubkey).filter fun item => decide (item.1 = slot)) := by
  unfold upsert
  rw [update_eq h]
  rfl

/-- What was in the list and what is written is there or among the reclaims. -/
theorem upsert_perm (h : OneEntryPerSlot (index.slotListOf pubkey))
    (hrun : index.upsert slot pubkey accountInfo = .ok (index', reclaims)) :
    (index.slotListOf pubkey ++ [(slot, accountInfo)]).Perm
      (index'.slotListOf pubkey ++ reclaims) := by
  rw [upsert_eq h] at hrun
  cases hrun
  have hsplit := filter_append_perm (fun item => !decide (item.1 = slot)) (index.slotListOf pubkey)
  simp only [Bool.not_not] at hsplit
  rw [slotListOf_setEntry, if_pos rfl]
  calc index.slotListOf pubkey ++ [(slot, accountInfo)]
    _ |>.Perm _ := hsplit.symm.append_right _
    _ |>.Perm _ := by
      rw [append_assoc, append_assoc]
      exact perm_append_comm.append_left _

end Writes

/-! ## Runs -/

/-- The runs of the calls on an index, with the number of counted insertions of each address that
are not yet un-referenced: an insertion is counted when the slot has no entry yet, and the count is
a `u64`. -/
inductive IndexRun : AccountsIndex T → (Pubkey → Nat) → Prop where
  | new : IndexRun new fun _ => 0
  | upsert {index index' : AccountsIndex T} {counted : Pubkey → Nat} {slot : Nat} {pubkey : Pubkey}
    {accountInfo : T}
      {reclaims : SlotList T} (h : IndexRun index counted)
      (hrun : index.upsert slot pubkey accountInfo = .ok (index', reclaims))
        (hfits : counted pubkey + 1 < U64) :
      IndexRun index' (if slot ∈ (index.slotListOf pubkey).map Prod.fst then counted
        else Function.update counted pubkey (counted pubkey + 1))
  | addRoot {index : AccountsIndex T} {counted : Pubkey → Nat} (slot : Nat)
    (h : IndexRun index counted) :
      IndexRun (index.addRoot slot) counted
  | purgeExact {index index' : AccountsIndex T} {counted : Pubkey → Nat} {pubkey : Pubkey}
    {slots : List Nat}
      {reclaims : SlotList T} {isEmpty : Bool} (h : IndexRun index counted)
      (hrun : index.purgeExact pubkey slots = .ok (index', reclaims, isEmpty)) :
        IndexRun index' counted
  | cleanRootedEntries {index : AccountsIndex T} {counted : Pubkey → Nat} (pubkey : Pubkey)
      (maxCleanRoot : Option Nat) (h : IndexRun index counted) :
      IndexRun (index.cleanRootedEntries pubkey maxCleanRoot).1 counted
  | cleanUnrootedEntriesBySlot {index : AccountsIndex T} {counted : Pubkey → Nat} (purgeSlot : Nat)
      (pubkey : Pubkey) (h : IndexRun index counted) :
      IndexRun (index.cleanUnrootedEntriesBySlot purgeSlot pubkey).1 counted
  | unrefFromStorage {index : AccountsIndex T} {counted : Pubkey → Nat} {pubkey : Pubkey}
      (h : IndexRun index counted) (hpos : 0 < counted pubkey) :
      IndexRun (index.unrefFromStorage pubkey) (Function.update counted pubkey (counted pubkey - 1))

section Runs

variable {index : AccountsIndex T} {counted : Pubkey → Nat}

theorem OneEntryPerSlot.upsert {l : SlotList T} (h : OneEntryPerSlot l) (slot : Nat)
    (accountInfo : T) :
    OneEntryPerSlot ((l.filter fun item => !decide (item.1 = slot)) ++ [(slot, accountInfo)]) := by
  unfold OneEntryPerSlot
  rw [map_append, nodup_append]
  refine ⟨h.filter _, nodup_singleton _, ?_⟩
  intro s hs s' hs' heq
  obtain ⟨item, hitem, rfl⟩ := mem_map.mp hs
  rw [map_singleton, mem_singleton] at hs'
  simp [heq, hs'] at hitem

/-- **Lists and counts along a run**: one entry for each slot, and the count of the insertions. -/
theorem IndexRun.tracked (h : IndexRun index counted) (key : Pubkey) :
    OneEntryPerSlot (index.slotListOf key) ∧ (index.entryElseCreate key).refCount =
      counted key := by
  induction h generalizing key with
  | new =>
    exact ⟨nodup_nil, rfl⟩
  | @upsert index index' counted slot pubkey accountInfo reclaims h hrun hfits ih =>
    rw [upsert_eq (ih pubkey).1] at hrun
    cases hrun
    rw [slotListOf_setEntry, entryElseCreate_setEntry]
    by_cases hkey : key = pubkey
    · rw [if_pos hkey, if_pos hkey, hkey]
      refine ⟨(ih pubkey).1.upsert slot accountInfo, ?_⟩
      by_cases hmem : slot ∈ (index.slotListOf pubkey).map Prod.fst
      · rw [if_pos hmem, if_pos hmem]
        exact (ih pubkey).2
      · rw [if_neg hmem, if_neg hmem, Function.update_self]
        rw [(ih pubkey).2]
        exact Nat.mod_eq_of_lt hfits
    · rw [if_neg hkey, if_neg hkey]
      refine ⟨(ih key).1, (ih key).2.trans ?_⟩
      by_cases hmem : slot ∈ (index.slotListOf pubkey).map Prod.fst
      · rw [if_pos hmem]
      · rw [if_neg hmem, Function.update_of_ne hkey]
  | addRoot slot h ih => exact ih key
  | purgeExact h hrun ih =>
    have hremoves := (purgeExact_removes hrun).1
    exact ⟨hremoves.oneEntryPerSlot (fun key => (ih key).1) key,
      (hremoves.refCount key).trans (ih key).2⟩
  | @cleanRootedEntries index counted pubkey maxCleanRoot h ih =>
    have hremoves := cleanRootedEntries_removes index pubkey maxCleanRoot
    exact ⟨hremoves.oneEntryPerSlot (fun key => (ih key).1) key,
      (hremoves.refCount key).trans (ih key).2⟩
  | @cleanUnrootedEntriesBySlot index counted purgeSlot pubkey h ih =>
    have hremoves := cleanUnrootedEntriesBySlot_removes index purgeSlot pubkey
    exact ⟨hremoves.oneEntryPerSlot (fun key => (ih key).1) key,
      (hremoves.refCount key).trans (ih key).2⟩
  | @unrefFromStorage index counted pubkey h hpos ih =>
    unfold AccountsIndex.unrefFromStorage
    cases he : index.accountMaps[pubkey]? with
    | none =>
      -- an address without an entry has no counted insertion
      have hzero := (ih pubkey).2
      unfold entryElseCreate at hzero
      rw [he] at hzero
      exact absurd hzero.symm hpos.ne'
    | some e =>
      have hentry : index.entryElseCreate pubkey = e := by
        unfold entryElseCreate
        rw [he]
        rfl
      have hcount : e.refCount = counted pubkey := hentry ▸ (ih pubkey).2
      rw [slotListOf_setEntry, entryElseCreate_setEntry]
      by_cases hkey : key = pubkey
      · rw [if_pos hkey, if_pos hkey, hkey, Function.update_self, ← slotListOf_of_some he]
        refine ⟨(ih pubkey).1, ?_⟩
        unfold predU64
        rw [if_neg (by omega), hcount]
      · rw [if_neg hkey, if_neg hkey, Function.update_of_ne hkey]
        exact ih key

/-- **The index returns the newest visible version.**  Along every run each list has at most one
entry for each slot, the reference count of an address is the number of its counted insertions that
are not yet un-referenced, and `get` finds the entry with the greatest slot among the ancestors and
the roots up to the bound.  Cleaning with a bound changes no answer with a bound at or above it.
Every call reclaims what it takes out of the list. -/
theorem indexRun_newestVisible (h : IndexRun index counted) :
    (∀ pubkey, OneEntryPerSlot (index.slotListOf pubkey)) ∧
    (∀ (pubkey : Pubkey) e, index.accountMaps[pubkey]? = some e → e.refCount = counted pubkey) ∧
    (∀ pubkey ancestors maxRoot slot t, index.find pubkey ancestors maxRoot = some (slot, t) ↔
      (slot, t) ∈ index.slotListOf pubkey ∧ index.Visible ancestors maxRoot slot ∧
        ∀ item ∈ index.slotListOf pubkey, index.Visible ancestors maxRoot item.1 → item.1 ≤ slot) ∧
    (∀ pubkey maxCleanRoot,
      (∀ key ancestors maxRoot,
        (maxRoot = none ∨ ∃ b c, maxRoot = some b ∧ maxCleanRoot = some c ∧ c ≤ b) →
        (index.cleanRootedEntries pubkey maxCleanRoot).1.find key ancestors maxRoot
          = index.find key ancestors maxRoot) ∧
      (index.slotListOf pubkey).Perm
        ((index.cleanRootedEntries pubkey maxCleanRoot).1.slotListOf pubkey ++
        (index.cleanRootedEntries pubkey maxCleanRoot).2) ∧
      ∀ key, key ≠ pubkey →
        (index.cleanRootedEntries pubkey maxCleanRoot).1.slotListOf key = index.slotListOf key) ∧
    (∀ pubkey slots index' reclaims isEmpty, index.purgeExact pubkey slots =
      .ok (index', reclaims, isEmpty) →
      (index.slotListOf pubkey).Perm (index'.slotListOf pubkey ++ reclaims)) ∧
    (∀ pubkey slot, (index.slotListOf pubkey).Perm
      ((index.cleanUnrootedEntriesBySlot slot pubkey).1.slotListOf pubkey ++
        (index.cleanUnrootedEntriesBySlot slot pubkey).2)) ∧
    ∀ pubkey slot t index' reclaims, index.upsert slot pubkey t = .ok (index', reclaims) →
      (index.slotListOf pubkey ++ [(slot, t)]).Perm (index'.slotListOf pubkey ++ reclaims) := by
  have hone : ∀ key, OneEntryPerSlot (index.slotListOf key) := fun key => (h.tracked key).1
  refine ⟨hone, fun pubkey e he => ?_, fun pubkey _ _ _ _ => find_eq_some_iff (hone pubkey),
    fun pubkey maxCleanRoot => ?_, fun _ _ _ _ _ hrun => (purgeExact_removes hrun).1.perm,
    fun pubkey slot => (cleanUnrootedEntriesBySlot_removes index slot pubkey).perm,
    fun pubkey slot t _ _ hrun => upsert_perm (hone pubkey) hrun⟩
  · have hcount := (h.tracked pubkey).2
    unfold entryElseCreate at hcount
    rwa [he] at hcount
  · have hremoves := cleanRootedEntries_removes index pubkey maxCleanRoot
    refine ⟨fun key ancestors maxRoot hbound => ?_, hremoves.perm,
      fun key hkey => slotListOf_congr (hremoves.others key hkey)⟩
    refine hremoves.find_eq hone (fun item _ hdead => ?_) key
    obtain ⟨item', hitem', hlive, hroot, hle, hlt⟩ := exists_root_of_canPurge hdead
    refine ⟨item', hitem', hlive, .inr ⟨hroot, fun b hb => ?_⟩, hlt⟩
    rcases hbound with hnone | ⟨b', c, hb', hc, hcb⟩
    · rw [hnone] at hb
      cases hb
    · rw [hb'] at hb
      cases hb
      exact (hle c hc).trans hcb

/-- An address written at slots 1 and 2. -/
def twoVersions : AccountsIndex Nat :=
  (new.setEntry 7 ⟨1, [(1, 10)]⟩).setEntry 7 ⟨2, [(1, 10), (2, 20)]⟩

theorem indexRun_newestVisible_two_versions :
    ∃ counted, IndexRun (twoVersions.addRoot 1) counted ∧ counted 7 = 2 ∧
      (twoVersions.addRoot 1).find 7 (some [2]) none = some (2, 20) ∧
      (twoVersions.addRoot 1).find 7 none none = some (1, 10) := by
  have hwrite₁ : (new : AccountsIndex Nat).upsert 1 7 10 =
      .ok (new.setEntry 7 ⟨1, [(1, 10)]⟩, []) := rfl
  have hwrite₂ : (new.setEntry 7 ⟨1, [(1, 10)]⟩ : AccountsIndex Nat).upsert 2 7 20 =
      .ok (twoVersions, []) := rfl
  have hrun := ((IndexRun.new.upsert hwrite₁ (by decide)).upsert hwrite₂ (by decide)).addRoot 1
  obtain ⟨_, hcount, hfind, _, _⟩ := indexRun_newestVisible hrun
  refine ⟨_, hrun, (hcount 7 ⟨2, [(1, 10), (2, 20)]⟩ rfl).symm,
    (hfind 7 _ _ 2 20).mpr ⟨?_, ?_, ?_⟩, ?_⟩
  · exact mem_cons_of_mem _ mem_cons_self
  · exact .inl ⟨[2], rfl, mem_singleton_self 2⟩
  · intro item hitem _
    rcases mem_cons.mp hitem with rfl | hitem
    · decide
    · rw [mem_singleton.mp hitem]
  · decide +kernel

end Runs

end AccountsIndex

end Panoptes.Runtime
