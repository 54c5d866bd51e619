import Panoptes.Ledger.InsertBook

/-!
# The tree of slots

What `handle_chaining` does to the metadata as a whole.  The metadata that a call would write is a
function from slots (`Chaining.view`); links and connectivity are statements about such a function
(`SlotTree`).  While the slots of a call are handled, some are not linked to their parent yet, and
the children of some that became full are not connected yet: both sets are parameters of `SlotTree`,
and both are empty at the start and at the end of a call.

* `SlotTree.start`, `SlotTree.link`, `SlotTree.connect` — the three things a call does to the tree.
* `traverseChildren_returns` — the traversal reaches the children of every full slot that it
  reaches.
* `ChainedSlots` — the invariant of the loop, with the orphans column.

Principal result: `handleChaining_returns`.
-/

set_option autoImplicit false

namespace Panoptes.Ledger

open Lib Sdk List SlotMeta Chaining Blockstore
open Std (ExtTreeMap ExtTreeSet)

/-! ## Links and connectivity -/

/-- The metadata of every slot that has any. -/
abbrev Metas := Nat → Option SlotMeta

variable (M : Metas) (s : Nat)

/-- The parent of a slot, if its metadata knows one. -/
def Metas.parent : Option Nat :=
  (M s).bind fun m => if m.isOrphan then none else some m.parentSlot

/-- The slots that the metadata of a slot lists as its children. -/
def Metas.children : List Nat := (M s).elim [] SlotMeta.nextSlots

def Metas.full : Prop := ∃ m, M s = some m ∧ m.isFull

def Metas.connected : Prop := ∃ m, M s = some m ∧ m.isConnected

/-- A slot has a parent and does not wait to be linked to it. -/
structure Link (M : Metas) (unlinked : Nat → Prop) (c p : Nat) : Prop where
  nonzero : c ≠ 0
  parent : M.parent c = some p
  linked : ¬ unlinked c

/-- The tree of slots.  `unlinked` slots wait to be linked to their parent, the children of `stale`
ones to be connected. -/
structure SlotTree (M : Metas) (unlinked stale : Nat → Prop) : Prop where
  valid : ∀ c p, M.parent c = some p → ValidParent c p
  nodup : ∀ p, (M.children p).Nodup
  children : ∀ p c, c ∈ M.children p ↔ Link M unlinked c p
  root : M 0 ≠ none → M.connected 0
  connected : ∀ s, M.connected s → s = 0 ∨ ∃ p, Link M unlinked s p ∧ M.connected p ∧ M.full p
  propagated : ∀ p c, Link M unlinked c p → M.connected p → M.full p → ¬ stale p → M.connected c

open Metas

variable {M : Metas} {s p : Nat} {unlinked : Nat → Prop} {m : SlotMeta} {visited : List Nat}
  {c : Chaining} {db : Blockstore} {e : SlotMetaWorkingSetEntry} {b : Batch} {log new : List Shred}

section Tree

variable {M' : Metas} {stale : Nat → Prop} {c start : Nat}

theorem Link.lt (h : SlotTree M unlinked stale) (hlink : Link M unlinked c p) : p < c := by
  rcases h.valid c p hlink.parent with hlt | ⟨hzero, -⟩
  · exact hlt
  · exact absurd hzero hlink.nonzero

theorem Link.ne_none (hlink : Link M unlinked c p) : M c ≠ none := by
  intro hnone
  have hparent := hlink.parent
  unfold Metas.parent at hparent
  rw [hnone] at hparent
  cases hparent

theorem Link.parent_ne_none (h : SlotTree M unlinked stale) (hlink : Link M unlinked c p) :
    M p ≠ none := by
  intro hnone
  have hmem := (h.children p c).mpr hlink
  unfold children at hmem
  rw [hnone] at hmem
  cases hmem

theorem SlotTree.not_connected (h : SlotTree M unlinked stale) (hs : unlinked s) (hne : s ≠ 0) :
    ¬ M.connected s := by
  intro hconn
  rcases h.connected s hconn with rfl | ⟨p, hlink, -⟩
  · exact hne rfl
  · exact hlink.linked hs

/-- The metadata after a slot is linked to its parent. -/
structure Linking (M M' : Metas) (s p : Nat) (m : SlotMeta) : Prop where
  ne : p ≠ s
  slot : M s = some m
  parent : M.parent s = some p
  slot' : M' s = some { m with
    isConnected := ((M p).getD (newOrphan p)).isConnected && ((M p).getD (newOrphan p)).isFull }
  parent' : M' p = some { (M p).getD (newOrphan p) with
    nextSlots := ((M p).getD (newOrphan p)).nextSlots ++ [s] }
  rest : ∀ q, q ≠ s → q ≠ p → M' q = M q

namespace Linking

section

variable (h : Linking M M' s p m)
include h

theorem parent_eq (q : Nat) : M'.parent q = M.parent q := by
  unfold Metas.parent
  by_cases hs : q = s
  · subst hs
    rw [h.slot', h.slot]
    rfl
  · by_cases hp : q = p
    · subst hp
      rw [h.parent']
      cases M q <;> rfl
    · rw [h.rest q hs hp]

theorem children_eq (q : Nat) :
    M'.children q = if q = p then M.children p ++ [s] else M.children q := by
  unfold children
  by_cases hp : q = p
  · subst hp
    rw [if_pos rfl, h.parent']
    cases M q <;> rfl
  · rw [if_neg hp]
    by_cases hs : q = s
    · subst hs
      rw [h.slot', h.slot]
      rfl
    · rw [h.rest q hs hp]

theorem full_iff (q : Nat) : M'.full q ↔ M.full q := by
  unfold full
  by_cases hs : q = s
  · subst hs
    rw [h.slot', h.slot]
    simp [isFull]
  · by_cases hp : q = p
    · subst hp
      rw [h.parent']
      cases M q <;> simp [isFull, newOrphan, new]
    · rw [h.rest q hs hp]

/-- A slot without metadata is made an orphan, and connected only if it is slot 0. -/
theorem connected_iff {q : Nat} (hs : q ≠ s) :
    M'.connected q ↔ M.connected q ∨ q = 0 ∧ q = p ∧ M p = none := by
  unfold connected
  by_cases hp : q = p
  · subst hp
    rw [h.parent']
    cases M q <;> simp [newOrphan, new]
  · rw [h.rest q hs hp]
    simp [hp]

theorem connected_slot : M'.connected s ↔ M.connected p ∧ M.full p := by
  unfold connected full
  rw [h.slot']
  cases M p <;> simp [newOrphan, new, isFull]

theorem link_iff (hne : s ≠ 0) (hun : unlinked s) (c q : Nat) :
    Link M' (fun c => unlinked c ∧ c ≠ s) c q ↔ Link M unlinked c q ∨ c = s ∧ q = p := by
  constructor
  · intro hlink
    by_cases hc : c = s
    · subst hc
      have hparent := hlink.parent
      rw [h.parent_eq, h.parent] at hparent
      exact .inr ⟨rfl, (Option.some.inj hparent).symm⟩
    · refine .inl ⟨hlink.nonzero, ?_, fun hu => hlink.linked ⟨hu, hc⟩⟩
      rw [← h.parent_eq]
      exact hlink.parent
  · rintro (hlink | ⟨rfl, rfl⟩)
    · refine ⟨hlink.nonzero, ?_, fun hu => hlink.linked hu.1⟩
      rw [h.parent_eq]
      exact hlink.parent
    · refine ⟨hne, ?_, fun hu => hu.2 rfl⟩
      rw [h.parent_eq]
      exact h.parent

end

end Linking

/-- **Linking a slot** whose children wait to be connected. -/
theorem SlotTree.link (h : SlotTree M unlinked stale) (hlinking : Linking M M' s p m) (hne : s ≠ 0)
    (hun : unlinked s) (hstale : stale s) : SlotTree M' (fun c => unlinked c ∧ c ≠ s) stale := by
  have hlink := hlinking.link_iff hne hun
  have hfull := hlinking.full_iff
  -- No connected slot hangs on `s`, which was not connected before.
  have hnot : ¬ M.connected s := h.not_connected hun hne
  have hkeeps : ∀ q, M.connected q → M'.connected q := by
    intro q hq
    refine (hlinking.connected_iff ?_).mpr (.inl hq)
    rintro rfl
    exact hnot hq
  constructor
  case valid =>
    intro c q hparent
    rw [hlinking.parent_eq] at hparent
    exact h.valid c q hparent
  case nodup =>
    intro q
    rw [hlinking.children_eq]
    split
    · rw [nodup_append]
      refine ⟨h.nodup p, nodup_singleton s, ?_⟩
      rintro c hc d hd rfl
      rw [mem_singleton.mp hd] at hc
      exact ((h.children p s).mp hc).linked hun
    · exact h.nodup q
  case children =>
    intro q c
    rw [hlinking.children_eq, hlink, ← h.children]
    by_cases hq : q = p
    · subst hq
      simp
    · simp [hq]
  case root =>
    intro hzero
    by_cases hold : M 0 = none
    · refine (hlinking.connected_iff hne.symm).mpr (.inr ⟨rfl, ?_, ?_⟩)
      · by_contra hp
        rw [hlinking.rest 0 hne.symm hp] at hzero
        exact hzero hold
      · by_cases hp : p = 0
        · rw [hp]
          exact hold
        · exact absurd hold (hlinking.rest 0 hne.symm (Ne.symm hp) ▸ hzero)
    · exact hkeeps 0 (h.root hold)
  case connected =>
    intro q hq
    by_cases hqs : q = s
    · subst hqs
      obtain ⟨hconn, hfullp⟩ := hlinking.connected_slot.mp hq
      exact .inr ⟨p, (hlink q p).mpr (.inr ⟨rfl, rfl⟩), hkeeps p hconn, (hfull p).mpr hfullp⟩
    · rcases (hlinking.connected_iff hqs).mp hq with hold | ⟨hzero, -⟩
      · rcases h.connected q hold with hzero | ⟨r, hlinkr, hconn, hfullr⟩
        · exact .inl hzero
        · exact .inr ⟨r, (hlink q r).mpr (.inl hlinkr), hkeeps r hconn, (hfull r).mpr hfullr⟩
      · exact .inl hzero
  case propagated =>
    intro q c hlinkq hconn hfullq hfresh
    have hqs : q ≠ s := by
      rintro rfl
      exact hfresh hstale
    have hfullq' := (hfull q).mp hfullq
    have hconnq : M.connected q := by
      rcases (hlinking.connected_iff hqs).mp hconn with hold | ⟨-, rfl, hnone⟩
      · exact hold
      · obtain ⟨m', hm', -⟩ := hfullq'
        rw [hnone] at hm'
        cases hm'
    rcases (hlink c q).mp hlinkq with hold | ⟨rfl, rfl⟩
    · exact hkeeps c (h.propagated q c hold hconnq hfullq' hfresh)
    · exact hlinking.connected_slot.mpr ⟨hconnq, hfullq'⟩

/-- The metadata after the slots of a list are connected. -/
def Metas.connect (M : Metas) (visited : List Nat) : Metas := fun s =>
  (M s).map fun m => if s ∈ visited then { m with isConnected := true } else m

section

variable (M : Metas) (visited : List Nat)

theorem Metas.parent_connect (s : Nat) : (M.connect visited).parent s = M.parent s := by
  unfold parent connect
  cases M s with
  | none => rfl
  | some => by_cases hs : s ∈ visited <;> simp [hs, isOrphan, isParentSet]

theorem Metas.children_connect (s : Nat) : (M.connect visited).children s = M.children s := by
  unfold children connect
  cases M s with
  | none => rfl
  | some => by_cases hs : s ∈ visited <;> simp [hs]

theorem Metas.full_connect (s : Nat) : (M.connect visited).full s ↔ M.full s := by
  unfold full connect
  cases M s with
  | none => rfl
  | some => by_cases hs : s ∈ visited <;> simp [hs, isFull]

theorem Metas.connected_connect (s : Nat) :
    (M.connect visited).connected s ↔ M.connected s ∨ s ∈ visited ∧ M s ≠ none := by
  unfold connected connect
  cases M s with
  | none => simp
  | some => by_cases hs : s ∈ visited <;> simp [hs]

theorem link_connect (unlinked : Nat → Prop) (c p : Nat) :
    Link (M.connect visited) unlinked c p ↔ Link M unlinked c p := by
  constructor
  · rintro ⟨hne, hparent, hlinked⟩
    rw [parent_connect] at hparent
    exact ⟨hne, hparent, hlinked⟩
  · rintro ⟨hne, hparent, hlinked⟩
    refine ⟨hne, ?_, hlinked⟩
    rw [parent_connect]
    exact hparent

end

/-- What a traversal from `start` reaches. -/
structure Traversed (M : Metas) (unlinked : Nat → Prop) (start : Nat)
    (visited : List Nat) : Prop where
  start_mem : start ∈ visited
  origin : ∀ s ∈ visited, s = start ∨ ∃ p ∈ visited, M.full p ∧ Link M unlinked s p
  closed : ∀ p ∈ visited, M.full p → ∀ c, Link M unlinked c p → c ∈ visited

/-- **Connecting what a traversal reaches** from a connected slot: the children of that slot wait no
longer. -/
theorem SlotTree.connect (h : SlotTree M unlinked stale) (hstart : M.connected start)
    (hv : Traversed M unlinked start visited) :
    SlotTree (M.connect visited) unlinked fun s => stale s ∧ s ≠ start := by
  constructor
  case valid =>
    intro c p hparent
    rw [parent_connect] at hparent
    exact h.valid c p hparent
  case nodup =>
    intro p
    rw [children_connect]
    exact h.nodup p
  case children =>
    intro p c
    rw [children_connect, link_connect]
    exact h.children p c
  case root =>
    intro hzero
    refine (Metas.connected_connect ..).mpr (.inl (h.root fun hnone => hzero ?_))
    unfold Metas.connect
    rw [hnone]
    rfl
  case connected =>
    intro s hs
    have hold : M.connected s →
        s = 0 ∨ ∃ p, Link (M.connect visited) unlinked s p ∧ (M.connect visited).connected p ∧
          (M.connect visited).full p := by
      intro hconn
      rcases h.connected s hconn with hzero | ⟨p, hlink, hconnp, hfullp⟩
      · exact .inl hzero
      · exact .inr ⟨p, (link_connect ..).mpr hlink, (connected_connect ..).mpr (.inl hconnp),
          (full_connect ..).mpr hfullp⟩
    rcases (connected_connect ..).mp hs with hconn | ⟨hmem, -⟩
    · exact hold hconn
    · rcases hv.origin s hmem with rfl | ⟨p, hp, hfullp, hlink⟩
      · exact hold hstart
      · exact .inr ⟨p, (link_connect ..).mpr hlink,
          (connected_connect ..).mpr (.inr ⟨hp, hlink.parent_ne_none h⟩),
            (full_connect ..).mpr hfullp⟩
  case propagated =>
    intro p c hlink hconn hfull hfresh
    rw [link_connect] at hlink
    rw [full_connect] at hfull
    refine (connected_connect ..).mpr ?_
    by_cases hp : p ∈ visited
    · exact .inr ⟨hv.closed p hp hfull c hlink, hlink.ne_none⟩
    · have hne : p ≠ start := by
        rintro rfl
        exact hp hv.start_mem
      have hconn' : M.connected p := by
        rcases (connected_connect ..).mp hconn with hold | ⟨hmem, -⟩
        · exact hold
        · exact absurd hmem hp
      exact .inl (h.propagated p c hlink hconn' hfull fun hs => hfresh ⟨hs, hne⟩)

/-- The children of a slot wait no longer if the slot is not connected or not full. -/
theorem SlotTree.settle (h : SlotTree M unlinked stale)
    (hstart : ¬ (M.connected start ∧ M.full start)) :
    SlotTree M unlinked fun s => stale s ∧ s ≠ start := by
  refine { h with propagated := ?_ }
  intro p c hlink hconn hfull hfresh
  refine h.propagated p c hlink hconn hfull fun hs => hfresh ⟨hs, ?_⟩
  rintro rfl
  exact hstart ⟨hconn, hfull⟩

end Tree

/-! ## The metadata that a call would write -/

/-- The metadata of a slot as a call sees it. -/
def Chaining.view (db : Blockstore) (c : Chaining) : Metas :=
  fun slot => (c.findCached slot).or db.slotMetas[slot]?

/-- Where the entries of a working set come from. -/
def entrySource (workingSet : ExtTreeMap Nat SlotMetaWorkingSetEntry) (slot : Nat) :
    Option (Option SlotMeta × Bool) :=
      (workingSet[slot]?).map fun e => (e.oldSlotMeta, e.didInsertOccur)

/-- The caches of `handle_chaining` do not overlap, and the working set keeps its entries. -/
structure Chaining.Sound (working : ExtTreeMap Nat SlotMetaWorkingSetEntry)
    (c : Chaining) : Prop where
  source : ∀ slot, entrySource c.workingSet slot = entrySource working slot
  disjoint : ∀ slot : Nat, c.newChainedSlots[slot]? ≠ none → c.workingSet[slot]? = none

section View

variable {working : ExtTreeMap Nat SlotMetaWorkingSetEntry} {slot : Nat}

theorem findElseCreate_fst (db : Blockstore) (c : Chaining) (slot : Nat) :
    (c.findElseCreate db slot).1 = (c.view db slot).getD (newOrphan slot) := by
  unfold findElseCreate view
  cases c.findCached slot <;> rfl

/-- A slot that was found has metadata; nothing else changes. -/
theorem view_findElseCreate (db : Blockstore) (c : Chaining) (slot s : Nat) :
    (c.findElseCreate db slot).2.view db s =
      if s = slot then some ((c.view db slot).getD (newOrphan slot)) else c.view db s := by
  unfold findElseCreate view
  cases hcached : c.findCached slot with
  | some m =>
    dsimp only
    split
    · rename_i heq
      rw [heq, hcached]
      rfl
    · rfl
  | none =>
    have hworking : c.workingSet[slot]? = none := by
      unfold findCached at hcached
      cases hw : c.workingSet[slot]? with
      | none => rfl
      | some =>
        rw [hw] at hcached
        cases hcached
    unfold findCached
    rw [getElem?_insert_ite]
    by_cases heq : s = slot
    · rw [if_pos heq, if_pos heq, heq, hworking]
      rfl
    · rw [if_neg heq, if_neg heq]

theorem view_findElseCreate_of_ne_none (h : c.view db slot ≠ none) (s : Nat) :
    (c.findElseCreate db slot).2.view db s = c.view db s := by
  rw [view_findElseCreate]
  split
  · rename_i heq
    subst heq
    obtain ⟨m, hm⟩ := Option.ne_none_iff_exists'.mp h
    rw [hm]
    rfl
  · rfl

theorem view_set (db : Blockstore) (c : Chaining) (slot : Nat) (m : SlotMeta) (s : Nat) :
    (c.set slot m).view db s = if s = slot then some m else c.view db s := by
  unfold Chaining.set Chaining.view Chaining.findCached
  cases hw : c.workingSet[slot]? with
  | some =>
    rw [getElem?_insert_ite]
    by_cases heq : s = slot
    · rw [if_pos heq, if_pos heq]
      rfl
    · rw [if_neg heq, if_neg heq]
  | none =>
    rw [getElem?_insert_ite]
    by_cases heq : s = slot
    · rw [if_pos heq, if_pos heq, heq, hw]
      rfl
    · rw [if_neg heq, if_neg heq]

theorem Chaining.Sound.findElseCreate (h : c.Sound working) (db : Blockstore) (slot : Nat) :
    (c.findElseCreate db slot).2.Sound working := by
  unfold Chaining.findElseCreate
  cases hcached : c.findCached slot with
  | some => exact h
  | none =>
    refine ⟨h.source, fun s hs => ?_⟩
    rw [getElem?_insert_ite] at hs
    split at hs
    · rename_i heq
      subst heq
      unfold findCached at hcached
      cases hw : c.workingSet[s]? with
      | none => rfl
      | some =>
        rw [hw] at hcached
        cases hcached
    · exact h.disjoint s hs

theorem Chaining.Sound.set (h : c.Sound working) (slot : Nat) (m : SlotMeta) :
    (c.set slot m).Sound working := by
  unfold Chaining.set
  cases hw : c.workingSet[slot]? with
  | some e =>
    refine ⟨fun s => ?_, fun s hs => ?_⟩
    · rw [← h.source s]
      unfold entrySource
      rw [getElem?_insert_ite]
      split
      · rename_i heq
        rw [heq, hw]
        rfl
      · rfl
    · have hnone := h.disjoint s hs
      rw [getElem?_insert_ite]
      split
      · rename_i heq
        rw [heq, hw] at hnone
        cases hnone
      · exact hnone
  | none =>
    refine ⟨h.source, fun s hs => ?_⟩
    rw [getElem?_insert_ite] at hs
    split at hs
    · rename_i heq
      rw [heq]
      exact hw
    · exact h.disjoint s hs

theorem Chaining.Sound.withOrphans (h : c.Sound working) (ops : List (Nat × Bool)) :
    { c with orphans := ops }.Sound working := ⟨h.source, h.disjoint⟩

/-- The slots that have metadata are at most as many as a traversal can meet. -/
theorem exists_known_slots (db : Blockstore) (c : Chaining) :
    ∃ known : Finset Nat, (∀ s, c.view db s ≠ none → s ∈ known) ∧ known.card ≤ c.numSlots db := by
  refine ⟨db.slotMetas.keys.toFinset ∪ c.workingSet.keys.toFinset ∪ c.newChainedSlots.keys.toFinset,
    ?_, ?_⟩
  · intro s hs
    rw [Finset.mem_union, Finset.mem_union, mem_keys_toFinset, mem_keys_toFinset, mem_keys_toFinset]
    unfold view findCached at hs
    cases hw : c.workingSet[s]? with
    | some e => exact .inl (.inr (Option.some_ne_none e))
    | none =>
      rw [hw] at hs
      cases hn : c.newChainedSlots[s]? with
      | some m => exact .inr (Option.some_ne_none m)
      | none =>
        rw [hn] at hs
        exact .inl (.inl hs)
  · have hcard : ∀ {β : Type} (t : ExtTreeMap Nat β), t.keys.toFinset.card ≤ t.size := by
      intro β t
      refine (toFinset_card_le _).trans ?_
      rw [ExtTreeMap.length_keys]
    refine (Finset.card_union_le _ _).trans
      (Nat.add_le_add ((Finset.card_union_le _ _).trans ?_) (hcard _))
    exact Nat.add_le_add (hcard _) (hcard _)

end View

/-! ## The traversal -/

/-- A traversal on its way: the slots of the stack are the ones that are reached and not visited. -/
structure Visiting (db : Blockstore) (M : Metas) (unlinked : Nat → Prop) (start : Nat)
    (visited stack : List Nat) (c : Chaining) : Prop where
  view : ∀ s, c.view db s = M.connect visited s
  nodup : (visited ++ stack).Nodup
  known : ∀ s ∈ visited ++ stack, M s ≠ none
  above : ∀ s ∈ visited ++ stack, start ≤ s
  start_mem : start ∈ visited ++ stack
  origin : ∀ s ∈ visited ++ stack, s = start ∨ ∃ p ∈ visited, M.full p ∧ Link M unlinked s p
  closed : ∀ p ∈ visited, M.full p → ∀ c, Link M unlinked c p → c ∈ visited ++ stack

theorem Metas.connect_eq_none : M.connect visited s = none ↔ M s = none := by
  exact Option.map_eq_none_iff

/-- The turn of a slot: it is connected. -/
theorem Metas.connect_append (M : Metas) (visited : List Nat) (slot s : Nat) :
    M.connect (visited ++ [slot]) s =
      if s = slot then (M.connect visited slot).map fun m => { m with isConnected := true }
      else M.connect visited s := by
  unfold connect
  by_cases hs : s = slot
  · subst hs
    rw [if_pos rfl, Option.map_map]
    refine congrArg (fun f => (M s).map f) (funext fun m => ?_)
    by_cases hmem : s ∈ visited <;> simp [hmem]
  · simp [hs]

section Traverse

variable {stale : Nat → Prop} {start slot : Nat} {stack : List Nat}
  {working : ExtTreeMap Nat SlotMetaWorkingSetEntry}

section

variable (db : Blockstore)

theorem view_findChildren (c : Chaining) (children : List Nat)
    (h : ∀ s ∈ children, c.view db s ≠ none) (s : Nat) : (findChildren db c children).view db s =
      c.view db s := by
  induction children generalizing c with
  | nil => rfl
  | cons child rest ih =>
    have hview := view_findElseCreate_of_ne_none (h child mem_cons_self)
    refine (ih (c.findElseCreate db child).2 fun q hq => ?_).trans (hview s)
    rw [hview q]
    exact h q (mem_cons_of_mem child hq)

theorem sound_findChildren (h : c.Sound working) (db : Blockstore) (children : List Nat) :
    (findChildren db c children).Sound working := by
  induction children generalizing c with
  | nil => exact h
  | cons child rest ih => exact ih (h.findElseCreate db child)

theorem orphans_findElseCreate (c : Chaining) (slot : Nat) :
    (c.findElseCreate db slot).2.orphans = c.orphans := by
  unfold findElseCreate
  cases c.findCached slot <;> rfl

theorem orphans_set (c : Chaining) (slot : Nat) (m : SlotMeta) :
    (c.set slot m).orphans = c.orphans := by
  unfold Chaining.set
  cases c.workingSet[slot]? <;> rfl

theorem orphans_findChildren (c : Chaining) (children : List Nat) :
    (findChildren db c children).orphans = c.orphans := by
  induction children generalizing c with
  | nil => rfl
  | cons child rest ih => exact (ih _).trans (orphans_findElseCreate db c child)

/-- The slot on top of the stack is visited. -/
def visitSlot (c : Chaining) (slot : Nat) : Chaining :=
  (c.findElseCreate db slot).2.set slot { (c.findElseCreate db slot).1 with isConnected := true }

theorem traverseChildren_cons (fuel : Nat) (c : Chaining) (slot : Nat) (stack : List Nat) :
    traverseChildren db (fuel + 1) c (slot :: stack) =
      let m := (c.findElseCreate db slot).1
      if m.isFull then
        traverseChildren db fuel (findChildren db (visitSlot db c slot) m.nextSlots)
          (m.nextSlots.reverse ++ stack)
      else traverseChildren db fuel (visitSlot db c slot) stack := rfl

end

section

variable (h : Visiting db M unlinked start visited (slot :: stack) c)
include h

theorem Visiting.view_visitSlot (s : Nat) :
    (visitSlot db c slot).view db s = M.connect (visited ++ [slot]) s := by
  have hknown : c.view db slot ≠ none := by
    rw [h.view, Ne, connect_eq_none]
    exact h.known slot (by simp)
  unfold visitSlot
  rw [view_set, view_findElseCreate_of_ne_none hknown, findElseCreate_fst, connect_append,
    ← h.view, ← h.view]
  split
  · obtain ⟨m, hm⟩ := Option.ne_none_iff_exists'.mp hknown
    rw [hm]
    rfl
  · rfl

theorem Visiting.found :
    ((c.findElseCreate db slot).1.isFull ↔ M.full slot) ∧ (c.findElseCreate db slot).1.nextSlots =
      M.children slot := by
  have hknown := h.known slot (by simp)
  obtain ⟨m, hm⟩ := Option.ne_none_iff_exists'.mp hknown
  rw [findElseCreate_fst, h.view]
  unfold connect full children
  rw [hm]
  by_cases hmem : slot ∈ visited <;> simp [hmem, isFull]

theorem Visiting.of_not_full (hfull : ¬ M.full slot) :
    Visiting db M unlinked start (visited ++ [slot]) stack (visitSlot db c slot) := by
  have happend : visited ++ [slot] ++ stack = visited ++ slot :: stack := by simp
  constructor
  case view => exact h.view_visitSlot
  case nodup => exact happend ▸ h.nodup
  case known => exact happend ▸ h.known
  case above => exact happend ▸ h.above
  case start_mem => exact happend ▸ h.start_mem
  case origin =>
    intro s hs
    rw [happend] at hs
    rcases h.origin s hs with rfl | ⟨p, hp, hpfull, hlink⟩
    · exact .inl rfl
    · exact .inr ⟨p, mem_append_left _ hp, hpfull, hlink⟩
  case closed =>
    rw [happend]
    exact forall_mem_concat.mpr ⟨h.closed, fun hpfull => absurd hpfull hfull⟩

theorem Visiting.of_full (htree : SlotTree M unlinked stale) (hfull : M.full slot) :
    Visiting db M unlinked start (visited ++ [slot]) ((M.children slot).reverse ++ stack)
      (findChildren db (visitSlot db c slot) (M.children slot)) := by
  have hperm : (visited ++ [slot] ++ ((M.children slot).reverse ++ stack)).Perm
      (M.children slot ++ (visited ++ slot :: stack)) := by
    have hsplit : visited ++ [slot] ++ ((M.children slot).reverse ++ stack) =
        (visited ++ [slot]) ++ (M.children slot).reverse ++ stack := by simp
    rw [hsplit]
    refine ((perm_append_comm.append_right stack).trans ?_)
    have hassoc : (M.children slot).reverse ++ (visited ++ [slot]) ++ stack =
        (M.children slot).reverse ++ (visited ++ slot :: stack) := by simp
    rw [hassoc]
    exact (reverse_perm _).append_right _
  have hmem : ∀ s, s ∈ visited ++ [slot] ++ ((M.children slot).reverse ++ stack) ↔
      s ∈ M.children slot ∨ s ∈ visited ++ slot :: stack := by
    intro s
    rw [hperm.mem_iff, mem_append]
  have hslot : slot ∈ visited ++ slot :: stack := by simp
  -- A child of `slot` was not reached before: it has one parent, and `slot` was not visited.
  have hfresh : ∀ s ∈ M.children slot, s ∉ visited ++ slot :: stack := by
    intro s hs hold
    have hlink := (htree.children slot s).mp hs
    rcases h.origin s hold with rfl | ⟨p, hp, -, hlink'⟩
    · exact absurd (hlink.lt htree) (Nat.not_lt.mpr (h.above slot hslot))
    · have heq : p = slot := Option.some.inj (hlink'.parent.symm.trans hlink.parent)
      subst heq
      exact disjoint_of_nodup_append h.nodup hp mem_cons_self
  constructor
  case view =>
    intro s
    rw [view_findChildren]
    · exact h.view_visitSlot s
    · intro d hd
      rw [h.view_visitSlot, Ne, connect_eq_none]
      exact ((htree.children slot d).mp hd).ne_none
  case nodup =>
    rw [hperm.nodup_iff, nodup_append]
    refine ⟨htree.nodup slot, h.nodup, ?_⟩
    rintro a ha b hb rfl
    exact hfresh a ha hb
  case known =>
    intro s hs
    rcases (hmem s).mp hs with hs | hs
    · exact ((htree.children slot s).mp hs).ne_none
    · exact h.known s hs
  case above =>
    intro s hs
    rcases (hmem s).mp hs with hs | hs
    · exact (h.above slot hslot).trans (((htree.children slot s).mp hs).lt htree).le
    · exact h.above s hs
  case start_mem => exact (hmem start).mpr (.inr h.start_mem)
  case origin =>
    intro s hs
    rcases (hmem s).mp hs with hs | hs
    · exact .inr ⟨slot, by simp, hfull, (htree.children slot s).mp hs⟩
    · rcases h.origin s hs with rfl | ⟨p, hp, hpfull, hlink⟩
      · exact .inl rfl
      · exact .inr ⟨p, mem_append_left _ hp, hpfull, hlink⟩
  case closed =>
    simp only [hmem]
    exact forall_mem_concat.mpr ⟨fun p hp hpfull d hlink => .inr (h.closed p hp hpfull d hlink),
      fun _ d hlink => .inl ((htree.children slot d).mpr hlink)⟩

end

theorem Visiting.traversed (h : Visiting db M unlinked start visited [] c) :
    Traversed M unlinked start visited := by
  obtain ⟨-, -, -, -, hstart, horigin, hclosed⟩ := h
  rw [append_nil] at hstart horigin hclosed
  exact ⟨hstart, horigin, hclosed⟩

theorem sound_visitSlot (h : c.Sound working) (db : Blockstore) (slot : Nat) :
    (visitSlot db c slot).Sound working :=
  (h.findElseCreate db slot).set slot _

theorem orphans_visitSlot (db : Blockstore) (c : Chaining) (slot : Nat) :
    (visitSlot db c slot).orphans = c.orphans :=
      (orphans_set _ _ _).trans (orphans_findElseCreate db c slot)

/-- **The traversal** connects what it reaches; no slot is reached twice, so it ends. -/
theorem traverseChildren_returns {known : Finset Nat} (htree : SlotTree M unlinked stale)
    (hknown : ∀ s, M s ≠ none → s ∈ known) (fuel : Nat) (hfuel : known.card ≤ visited.length + fuel)
    (h : Visiting db M unlinked start visited stack c) (hsound : c.Sound working) :
    Returns (traverseChildren db fuel c stack)
      (fun c' =>
        (∃ visited', Traversed M unlinked start visited' ∧
          ∀ s, c'.view db s = M.connect visited' s) ∧
        c'.Sound working ∧ c'.orphans = c.orphans) fun _ => False := by
  induction fuel generalizing visited stack c with
  | zero =>
    cases stack with
    | nil => exact ⟨⟨visited, h.traversed, h.view⟩, hsound, rfl⟩
    | cons slot stack =>
      -- All reached slots are known ones, and one of them is not visited.
      have hsub : visited ++ slot :: stack ⊆ known.toList := fun s hs =>
        Finset.mem_toList.mpr (hknown s (h.known s hs))
      have hle := (subperm_of_subset h.nodup hsub).length_le
      rw [length_append, length_cons, Finset.length_toList] at hle
      omega
  | succ fuel ih =>
    cases stack with
    | nil => exact ⟨⟨visited, h.traversed, h.view⟩, hsound, rfl⟩
    | cons slot stack =>
      have hfuel' : known.card ≤ (visited ++ [slot]).length + fuel := by
        rw [length_append, length_singleton]
        omega
      rw [traverseChildren_cons]
      dsimp only
      rw [h.found.2]
      split
      · rename_i hfull
        refine (ih hfuel' (h.of_full htree (h.found.1.mp hfull))
          (sound_findChildren (sound_visitSlot hsound db slot) db _)).imp ?_
        rintro c' ⟨hv, hsound', horphans⟩
        refine ⟨hv, hsound', ?_⟩
        rw [horphans, orphans_findChildren, orphans_visitSlot]
      · rename_i hfull
        refine (ih hfuel' (h.of_not_full fun hf => hfull (h.found.1.mpr hf))
          (sound_visitSlot hsound db slot)).imp ?_
        rintro c' ⟨hv, hsound', horphans⟩
        refine ⟨hv, hsound', ?_⟩
        rw [horphans, orphans_visitSlot]

end Traverse

/-! ## The loop over the slots of a call -/

def Blockstore.metas (db : Blockstore) : Metas := fun s => db.slotMetas[s]?

def Metas.orphan (M : Metas) (s : Nat) : Prop := ∃ m, M s = some m ∧ m.isOrphan

/-- The slots of the database form a tree with its orphans. -/
structure Rooted (db : Blockstore) : Prop where
  tree : SlotTree db.metas (fun _ => False) fun _ => False
  orphans : ∀ s, s ∈ db.orphans ↔ db.metas.orphan s

section

variable (db : Blockstore) (working : ExtTreeMap Nat SlotMetaWorkingSetEntry)

/-- The state of `handle_chaining` before its loop. -/
def Chaining.start : Chaining :=
  { workingSet := working, newChainedSlots := ∅, orphans := [] }

/-- A slot of the call whose parent was not known. -/
def ToLink (s : Nat) : Prop :=
  working[s]? ≠ none ∧ s ≠ 0 ∧ (db.slotMeta s).isOrphan

/-- Links and connectivity apart, the metadata is the one before the loop. -/
structure SameContent (base M : Metas) : Prop where
  known : ∀ s, M s = none → base s = none
  content : ∀ s m, M s = some m → ∃ nextSlots isConnected,
    m = { (base s).getD (newOrphan s) with nextSlots := nextSlots, isConnected := isConnected }

/-- The invariant of the loop: the slots in `linked` are linked, and the children of those in
`settled` connected. -/
structure ChainedSlots (linked settled : List Nat) (c : Chaining) : Prop where
  sound : c.Sound working
  tree : SlotTree (c.view db) (fun s => ToLink db working s ∧ s ∉ linked) fun s => working[s]? ≠
    none ∧ s ∉ settled
  content : SameContent ((start working).view db) (c.view db)
  orphans : ∀ s, s ∈ setOrphans db.orphans c.orphans ↔
    (c.view db).orphan s ∨ working[s]? ≠ none ∧ s ∉ linked ∧ db.metas.orphan s

end

section Loop

variable {working : ExtTreeMap Nat SlotMetaWorkingSetEntry} {done : List Nat} {slot : Nat}
  {base M' : Metas} {orphans : ExtTreeSet Nat} {ops : List (Nat × Bool)}

theorem SlotTree.congr {unlinked' stale stale' : Nat → Prop} (h : SlotTree M unlinked stale)
    (hun : ∀ s, unlinked s ↔ unlinked' s)
    (hst : ∀ s, stale s ↔ stale' s) : SlotTree M unlinked' stale' := by
  obtain rfl : unlinked = unlinked' := funext fun s => propext (hun s)
  obtain rfl : stale = stale' := funext fun s => propext (hst s)
  exact h

theorem mem_setOrphans_append (orphans : ExtTreeSet Nat) (ops : List (Nat × Bool)) (slot : Nat)
    (present : Bool) (s : Nat) : s ∈ setOrphans orphans (ops ++ [(slot, present)]) ↔
      if s = slot then present = true else s ∈ setOrphans orphans ops := by
  unfold setOrphans
  rw [foldl_append]
  change s ∈ setPresent _ slot present ↔ _
  cases present with
  | true =>
    rw [mem_setPresent_true]
    by_cases hs : s = slot <;> simp [hs]
  | false =>
    rw [mem_setPresent_false]
    by_cases hs : s = slot <;> simp [hs]

theorem Blockstore.slotMeta_eq (db : Blockstore) (s : Nat) :
    db.slotMeta s = (db.metas s).getD (newOrphan s) := rfl

theorem Metas.parent_eq_some {c : Nat} :
    M.parent c = some p ↔ ∃ m, M c = some m ∧ m.isOrphan = false ∧ m.parentSlot = p := by
  unfold parent
  cases M c with
  | none => simp
  | some m => cases hm : m.isOrphan <;> simp [hm]

/-! ### Before the loop -/

/-- The working set of a call: its slots got shreds. -/
def Inserted (db : Blockstore) (working : ExtTreeMap Nat SlotMetaWorkingSetEntry) : Prop :=
  ∀ (slot : Nat) e, working[slot]? = some e → EntryOf db slot e ∧ e.didInsertOccur

theorem view_start (db : Blockstore) (working : ExtTreeMap Nat SlotMetaWorkingSetEntry) (s : Nat) :
    (start working).view db s =
      ((working[s]?).map SlotMetaWorkingSetEntry.newSlotMeta).or (db.metas s) := by
  unfold view findCached start
  cases working[s]? with
  | some => rfl
  | none => rfl

section Start

variable (hw : Inserted db working)
include hw

theorem children_start (s : Nat) : ((start working).view db).children s = db.metas.children s := by
  unfold children
  rw [view_start]
  cases he : working[s]? with
  | none => rfl
  | some e =>
    have hnext := (hw s e he).1.nextSlots
    rw [slotMeta_eq] at hnext
    cases hm : db.metas s with
    | none =>
      rw [hm] at hnext
      exact hnext
    | some =>
      rw [hm] at hnext
      exact hnext

theorem connected_start (s : Nat) : ((start working).view db).connected s ↔
    db.metas.connected s ∨ s = 0 ∧ working[s]? ≠ none ∧ db.metas s = none := by
  unfold connected
  rw [view_start]
  cases he : working[s]? with
  | none => simp
  | some e =>
    have hconn := (hw s e he).1.isConnected
    rw [slotMeta_eq] at hconn
    cases hm : db.metas s with
    | none =>
      rw [hm] at hconn
      simp [hconn, newOrphan, new]
    | some =>
      rw [hm] at hconn
      simp [hconn]

theorem full_start_of_full (h : db.metas.full s) : ((start working).view db).full s := by
  obtain ⟨m, hm, hfull⟩ := h
  unfold full
  rw [view_start]
  cases he : working[s]? with
  | none => exact ⟨m, hm, hfull⟩
  | some e =>
    refine ⟨e.newSlotMeta, rfl, (hw s e he).1.stays_full ?_⟩
    rw [slotMeta_eq, hm]
    exact hfull

theorem link_start (c p : Nat) :
    Link ((start working).view db) (ToLink db working) c p ↔
      Link db.metas (fun _ => False) c p := by
  constructor
  · rintro ⟨hne, hparent, hlinked⟩
    refine ⟨hne, ?_, id⟩
    rw [parent_eq_some] at hparent ⊢
    obtain ⟨m, hm, hknown, hp⟩ := hparent
    rw [view_start] at hm
    cases he : working[c]? with
    | none =>
      rw [he] at hm
      exact ⟨m, hm, hknown, hp⟩
    | some e =>
      rw [he] at hm
      cases hm
      -- The slot had a known parent, or it would wait to be linked.
      have hbase : (db.slotMeta c).isOrphan = false := by
        by_contra horphan
        rw [Bool.not_eq_false] at horphan
        exact hlinked ⟨he ▸ Option.some_ne_none e, hne, horphan⟩
      have hsame := (hw c e he).1.parent hbase
      rw [slotMeta_eq] at hbase hsame
      cases hm : db.metas c with
      | none =>
        have horphan : (newOrphan c).isOrphan = true := rfl
        rw [hm] at hbase
        exact absurd (hbase.symm.trans horphan) Bool.false_ne_true
      | some m =>
        rw [hm] at hbase hsame
        exact ⟨m, rfl, hbase, hsame.symm.trans hp⟩
  · rintro ⟨hne, hparent, -⟩
    obtain ⟨m, hm, hknown, hp⟩ := parent_eq_some.mp hparent
    have hbase : (db.slotMeta c).isOrphan = false := by
      rw [slotMeta_eq, hm]
      exact hknown
    refine ⟨hne, parent_eq_some.mpr ?_, fun h => absurd (h.2.2.symm.trans hbase) (by decide)⟩
    rw [view_start]
    cases he : working[c]? with
    | none => exact ⟨m, hm, hknown, hp⟩
    | some e =>
      have hsame := (hw c e he).1.parent hbase
      rw [slotMeta_eq, hm] at hsame
      exact ⟨e.newSlotMeta, rfl, (hw c e he).1.known (hw c e he).2, hsame.trans hp⟩

/-- **Before the loop** the slots of the call wait. -/
theorem SlotTree.start (h : SlotTree db.metas (fun _ => False) fun _ => False) :
    SlotTree ((start working).view db) (ToLink db working) fun s => working[s]? ≠ none := by
  have hlink := link_start hw
  have hkeeps : ∀ s, db.metas.connected s → ((Chaining.start working).view db).connected s :=
    fun s hs =>
    (connected_start hw s).mpr (.inl hs)
  constructor
  case valid =>
    intro c p hparent
    obtain ⟨m, hm, hknown, hp⟩ := parent_eq_some.mp hparent
    rw [view_start] at hm
    cases he : working[c]? with
    | none =>
      rw [he] at hm
      exact h.valid c p (parent_eq_some.mpr ⟨m, hm, hknown, hp⟩)
    | some e =>
      rw [he] at hm
      cases hm
      exact hp ▸ (hw c e he).1.valid (hw c e he).2
  case nodup =>
    intro p
    rw [children_start hw]
    exact h.nodup p
  case children =>
    intro p c
    rw [children_start hw, hlink]
    exact h.children p c
  case root =>
    intro hzero
    refine (connected_start hw 0).mpr ?_
    by_cases hnone : db.metas 0 = none
    · refine .inr ⟨rfl, fun hworking => hzero ?_, hnone⟩
      rw [view_start, hworking, hnone]
      rfl
    · exact .inl (h.root hnone)
  case connected =>
    intro s hs
    rcases (connected_start hw s).mp hs with hold | ⟨hzero, -⟩
    · rcases h.connected s hold with hzero | ⟨p, hlinkp, hconn, hfull⟩
      · exact .inl hzero
      · exact .inr ⟨p, (hlink s p).mpr hlinkp, hkeeps p hconn, full_start_of_full hw hfull⟩
    · exact .inl hzero
  case propagated =>
    intro p c hlinkc hconn hfull hfresh
    have hworking : working[p]? = none := not_not.mp hfresh
    have hview : (Chaining.start working).view db p = db.metas p := by
      rw [view_start, hworking]
      rfl
    unfold Metas.connected at hconn
    unfold Metas.full at hfull
    rw [hview] at hconn hfull
    exact hkeeps c (h.propagated p c ((hlink c p).mp hlinkc) hconn hfull id)

theorem ChainedSlots.start (h : Rooted db) : ChainedSlots db working [] [] (start working) := by
  constructor
  case sound => exact ⟨fun _ => rfl, fun s hs => absurd ExtTreeMap.getElem?_empty hs⟩
  case tree => exact (SlotTree.start hw h.tree).congr (fun s => by simp) fun s => by simp
  case content =>
    refine ⟨fun _ => id, fun s m hm => ⟨m.nextSlots, m.isConnected, ?_⟩⟩
    rw [hm]
    rfl
  case orphans =>
    intro s
    change s ∈ db.orphans ↔ _
    rw [h.orphans]
    unfold orphan
    rw [view_start]
    cases he : working[s]? with
    | none => simp
    | some e => simp [(hw s e he).1.known (hw s e he).2]

end Start

/-! ### One slot -/

/-- **A slot is linked to its parent.** -/
theorem chainToParent_returns (hsound : c.Sound working) (hm : c.view db slot = some m)
    (hknown : m.isOrphan = false) (hne : m.parentSlot ≠ slot) :
    Returns (chainToParent db c slot m) (fun c' =>
      Linking (c.view db) (c'.view db) slot m.parentSlot m ∧ c'.Sound working ∧
        c'.orphans = c.orphans ++
          if ((c.view db m.parentSlot).getD (newOrphan m.parentSlot)).isOrphan then
            [(m.parentSlot, true)]
          else [])
      fun _ => False := by
  unfold chainToParent
  rw [if_neg hne]
  set c₁ := (c.findElseCreate db m.parentSlot).2 with hc₁
  set prev := (c.findElseCreate db m.parentSlot).1 with hprev
  set c₂ := (c₁.set m.parentSlot { prev with nextSlots := prev.nextSlots ++ [slot] }).set slot
    { m with isConnected := prev.isConnected && prev.isFull } with hc₂
  have hprev' : prev = (c.view db m.parentSlot).getD (newOrphan m.parentSlot) :=
    findElseCreate_fst ..
  have horphans : c₂.orphans = c.orphans := by
    rw [orphans_set, orphans_set, orphans_findElseCreate]
  have hsound₂ : c₂.Sound working := ((hsound.findElseCreate db _).set _ _).set _ _
  have hview : ∀ q, c₂.view db q =
      if q = slot then some { m with isConnected := prev.isConnected && prev.isFull }
      else if q = m.parentSlot then some { prev with nextSlots := prev.nextSlots ++ [slot] }
      else c.view db q := by
    intro q
    rw [view_set, view_set, view_findElseCreate]
    by_cases hp : q = m.parentSlot
    · rw [if_pos hp, if_pos hp]
    · rw [if_neg hp, if_neg hp, if_neg hp]
  have hlinking : Linking (c.view db) (c₂.view db) slot m.parentSlot m := by
    constructor
    case ne => exact hne
    case slot => exact hm
    case parent => exact parent_eq_some.mpr ⟨m, hm, hknown, rfl⟩
    case slot' => rw [hview, if_pos rfl, hprev']
    case parent' => rw [hview, if_neg hne, if_pos rfl, hprev']
    case rest =>
      intro q hs hp
      rw [hview, if_neg hs, if_neg hp]
  rw [← hprev']
  change Returns
      (Except.ok (if prev.isOrphan then { c₂ with orphans := c₂.orphans ++ [(m.parentSlot, true)] }
        else c₂)) _ _
  cases prev.isOrphan with
  | true =>
    refine ⟨hlinking, hsound₂.withOrphans _, ?_⟩
    rw [horphans]
    rfl
  | false =>
    exact ⟨hlinking, hsound₂, horphans.trans (append_nil _).symm⟩

theorem SameContent.link (h : SameContent base M) (hlinking : Linking M M' s p m) :
    SameContent base M' := by
  have hgetD : ∃ nextSlots isConnected, (M p).getD (newOrphan p) =
      { (base p).getD (newOrphan p) with nextSlots := nextSlots, isConnected := isConnected } := by
    cases hp : M p with
    | some mp => exact h.content p mp hp
    | none =>
      rw [h.known p hp]
      exact ⟨_, _, rfl⟩
  constructor
  case known =>
    intro q hq
    by_cases hs : q = s
    · rw [hs, hlinking.slot'] at hq
      cases hq
    · by_cases hp : q = p
      · rw [hp, hlinking.parent'] at hq
        cases hq
      · rw [hlinking.rest q hs hp] at hq
        exact h.known q hq
  case content =>
    intro q mq hq
    by_cases hs : q = s
    · subst hs
      rw [hlinking.slot'] at hq
      cases hq
      obtain ⟨nextSlots, isConnected, heq⟩ := h.content q m hlinking.slot
      rw [heq]
      exact ⟨_, _, rfl⟩
    · by_cases hp : q = p
      · subst hp
        rw [hlinking.parent'] at hq
        cases hq
        obtain ⟨nextSlots, isConnected, heq⟩ := hgetD
        rw [heq]
        exact ⟨_, _, rfl⟩
      · rw [hlinking.rest q hs hp] at hq
        exact h.content q mq hq

theorem SameContent.connect (h : SameContent base M) (visited : List Nat) :
    SameContent base (M.connect visited) := by
  refine ⟨fun s hs => h.known s (Metas.connect_eq_none.mp hs), fun s m hm => ?_⟩
  obtain ⟨m₀, hm₀, heq⟩ := Option.map_eq_some_iff.mp hm
  obtain ⟨nextSlots, isConnected, hcontent⟩ := h.content s m₀ hm₀
  rw [hcontent] at heq
  by_cases hmem : s ∈ visited
  · rw [if_pos hmem] at heq
    exact ⟨nextSlots, true, heq.symm⟩
  · rw [if_neg hmem] at heq
    exact ⟨nextSlots, isConnected, heq.symm⟩

theorem Linking.orphan_iff (h : Linking M M' s p m) (q : Nat) :
    M'.orphan q ↔ M.orphan q ∨ q = p ∧ M p = none := by
  unfold orphan
  by_cases hs : q = s
  · subst hs
    rw [h.slot', h.slot]
    simp [isOrphan, isParentSet, h.ne.symm]
  · by_cases hp : q = p
    · subst hp
      rw [h.parent']
      cases M q <;> simp [newOrphan, new, isOrphan, isParentSet]
    · rw [h.rest q hs hp]
      simp [hp]

theorem Metas.orphan_connect (M : Metas) (visited : List Nat) (s : Nat) :
    (M.connect visited).orphan s ↔ M.orphan s := by
  unfold orphan connect
  cases M s with
  | none => rfl
  | some => by_cases hs : s ∈ visited <;> simp [hs, isOrphan, isParentSet]

/-- What the loop finds at a slot of the call. -/
structure Found (db : Blockstore) (c : Chaining) (slot : Nat) (m : SlotMeta) : Prop where
  view : c.view db slot = some m
  known : m.isOrphan = false
  valid : ValidParent slot m.parentSlot
  completed : m.isFull → isNewlyCompletedSlot m (db.metas slot)

theorem SameContent.found (hw : Inserted db working)
    (h : SameContent ((start working).view db) (c.view db))
    (hslot : working[slot]? ≠ none) : ∃ m, Found db c slot m := by
  obtain ⟨e, he⟩ := Option.ne_none_iff_exists'.mp hslot
  obtain ⟨hentry, hinserted⟩ := hw slot e he
  have hbase : (start working).view db slot = some e.newSlotMeta := by
    rw [view_start, he]
    rfl
  have hsome : c.view db slot ≠ none := by
    intro hnone
    rw [h.known slot hnone] at hbase
    cases hbase
  obtain ⟨m, hm⟩ := Option.ne_none_iff_exists'.mp hsome
  obtain ⟨nextSlots, isConnected, heq⟩ := h.content slot m hm
  rw [hbase] at heq
  refine ⟨m, hm, ?_, ?_, fun hfull => ?_⟩
  · rw [heq]
    exact hentry.known hinserted
  · rw [heq]
    exact hentry.valid hinserted
  · have hfull' : e.newSlotMeta.isFull := by
      rw [heq] at hfull
      exact hfull
    have hconsumed : (db.slotMeta slot).consumed < m.consumed := by
      rw [heq]
      rcases hentry.newly_full hfull' with hold | hlt
      · exact absurd (hold.symm.trans (hentry.not_full hinserted)) (by decide)
      · exact hlt
    rw [slotMeta_eq] at hconsumed
    unfold isNewlyCompletedSlot
    rw [hfull]
    cases hold : db.metas slot with
    | none => rfl
    | some =>
      rw [hold] at hconsumed
      exact bne_iff_ne.mpr hconsumed.ne'

theorem orphan_elim (db : Blockstore) (slot : Nat) :
    (db.metas slot).elim false isOrphan = true ↔ db.metas.orphan slot := by
  unfold orphan
  cases db.metas slot <;> simp

theorem toLink_iff (hslot : working[slot]? ≠ none) :
    (slot ≠ 0 ∧ (db.metas slot = none ∨ (db.metas slot).elim false isOrphan = true)) ↔
      ToLink db working slot := by
  unfold ToLink
  rw [slotMeta_eq]
  have horphan : (newOrphan slot).isOrphan = true := rfl
  cases db.metas slot <;> simp [hslot, horphan]

/-- A slot whose parent became known is no orphan any more. -/
theorem mem_setOrphans_delete
    (h : ∀ s, s ∈ setOrphans orphans ops ↔ M.orphan s ∨ working[s]? ≠ none ∧ s ∉ done ∧
      db.metas.orphan s)
    (hslot : ¬ M.orphan slot) (s : Nat) :
    s ∈
      setOrphans orphans
        (if (db.metas slot).elim false isOrphan then ops ++ [(slot, false)] else ops) ↔
      M.orphan s ∨ working[s]? ≠ none ∧ s ∉ done ++ [slot] ∧ db.metas.orphan s := by
  by_cases hold : db.metas.orphan slot
  · rw [if_pos ((orphan_elim db slot).mpr hold), mem_setOrphans_append]
    by_cases hs : s = slot
    · subst hs
      simp [hslot]
    · rw [h]
      simp [hs]
  · rw [if_neg (mt (orphan_elim db slot).mp hold), h]
    by_cases hs : s = slot
    · subst hs
      simp [hold]
    · simp [hs]

/-- Linking a slot puts its parent among the orphans if that has no parent itself. -/
theorem mem_setOrphans_link (hlinking : Linking M M' s p m) {rest : Nat → Prop}
    (h : ∀ q, q ∈ setOrphans orphans ops ↔ M.orphan q ∨ rest q) (q : Nat) :
    q ∈
      setOrphans orphans (ops ++ if ((M p).getD (newOrphan p)).isOrphan then [(p, true)] else []) ↔
      M'.orphan q ∨ rest q := by
  rw [hlinking.orphan_iff]
  have horphan : ((M p).getD (newOrphan p)).isOrphan = true ↔ M.orphan p ∨ M p = none := by
    have hnew : (newOrphan p).isOrphan = true := rfl
    unfold orphan
    cases M p <;> simp [hnew]
  by_cases hp : ((M p).getD (newOrphan p)).isOrphan
  · rw [if_pos hp, mem_setOrphans_append]
    by_cases hq : q = p
    · subst hq
      have hor := horphan.mp hp
      simp only [if_true, true_and, true_iff]
      exact .inl hor
    · rw [h]
      simp [hq]
  · rw [if_neg hp, append_nil, h]
    have hnone : M p ≠ none := fun hnone => hp (horphan.mpr (.inr hnone))
    simp [hnone]

theorem Found.not_orphan (h : Found db c slot m) : ¬ (c.view db).orphan slot := by
  rintro ⟨m', hm', horphan⟩
  rw [h.view] at hm'
  cases hm'
  exact absurd (horphan.symm.trans h.known) (by decide)

/-- The first half of `handle_chaining_for_slot`. -/
def linkSlot (db : Blockstore) (c : Chaining) (slot : Nat) (m : SlotMeta) : Except Panic Chaining :=
  if slot ≠ 0 ∧ (db.metas slot = none ∨ (db.metas slot).elim false isOrphan = true) then
    chainToParent db c slot m
  else .ok c

theorem linkSlot_returns (hw : Inserted db working) (h : ChainedSlots db working done done c)
    (hslot : working[slot]? ≠ none) (hnew : slot ∉ done) (hfound : Found db c slot m) :
    Returns (linkSlot db c slot m) (fun c' => ChainedSlots db working (done ++ [slot]) done
        { c' with orphans :=
            if (db.metas slot).elim false isOrphan then c'.orphans ++ [(slot, false)]
              else c'.orphans })
      fun _ => False := by
  unfold linkSlot
  by_cases hlink : ToLink db working slot
  · rw [if_pos ((toLink_iff hslot).mpr hlink)]
    have hlt : m.parentSlot < slot := by
      rcases hfound.valid with hlt | ⟨hzero, -⟩
      · exact hlt
      · exact absurd hzero hlink.2.1
    refine (chainToParent_returns h.sound hfound.view hfound.known hlt.ne).imp ?_
    rintro c' ⟨hlinking, hsound, horphans⟩
    have hcontent := h.content.link hlinking
    obtain ⟨m', hfound'⟩ := hcontent.found hw hslot
    constructor
    case sound => exact hsound.withOrphans _
    case tree =>
      refine (h.tree.link hlinking hlink.2.1 ⟨hlink, hnew⟩ ⟨hslot, hnew⟩).congr (fun s => ?_)
        fun s => Iff.rfl
      simp [and_assoc]
    case content => exact hcontent
    case orphans =>
      refine mem_setOrphans_delete ?_ hfound'.not_orphan
      rw [horphans]
      exact mem_setOrphans_link hlinking h.orphans
  · rw [if_neg (mt (toLink_iff hslot).mp hlink)]
    constructor
    case sound => exact h.sound.withOrphans _
    case tree =>
      refine h.tree.congr (fun s => ?_) fun s => Iff.rfl
      by_cases hs : s = slot
      · subst hs
        simp [hlink]
      · simp [hs]
    case content => exact h.content
    case orphans => exact mem_setOrphans_delete h.orphans hfound.not_orphan

/-- The second half of `handle_chaining_for_slot`. -/
def settleSlot (db : Blockstore) (c : Chaining) (slot : Nat) : Except Panic Chaining :=
  let m := (c.findElseCreate db slot).1
  if isNewlyCompletedSlot m (db.metas slot) && m.isConnected then
    traverseChildren db (c.numSlots db) c [slot]
  else .ok c

theorem settleSlot_returns (hw : Inserted db working)
    (h : ChainedSlots db working (done ++ [slot]) done c) (hslot : working[slot]? ≠ none) :
    Returns (settleSlot db c slot) (ChainedSlots db working (done ++ [slot]) (done ++ [slot]))
      fun _ => False := by
  obtain ⟨m, hfound⟩ := h.content.found hw hslot
  have hm : (c.findElseCreate db slot).1 = m := by
    rw [findElseCreate_fst, hfound.view]
    rfl
  have hstale : ∀ s, ((working[s]? ≠ none ∧ s ∉ done) ∧ s ≠ slot) ↔ working[s]? ≠ none ∧
      s ∉ done ++ [slot] := by
    simp [and_assoc]
  unfold settleSlot
  rw [hm]
  by_cases hcompleted : (isNewlyCompletedSlot m (db.metas slot) && m.isConnected) = true
  · rw [if_pos hcompleted]
    have hconn : (c.view db).connected slot :=
      ⟨m, hfound.view, (Bool.and_eq_true_iff.mp hcompleted).2⟩
    obtain ⟨known, hknown, hcard⟩ := exists_known_slots db c
    have hvisiting :
        Visiting db (c.view db)
          (fun s => ToLink db working s ∧ s ∉ done ++ [slot]) slot [] [slot] c := by
      constructor
      case view =>
        intro s
        unfold connect
        cases c.view db s <;> simp
      case nodup => simp
      case known => simp [hfound.view]
      case above => simp
      case start_mem => simp
      case origin => simp
      case closed => simp
    refine (traverseChildren_returns h.tree hknown (c.numSlots db) (by simpa using hcard)
      hvisiting h.sound).imp ?_
    rintro c' ⟨⟨visited, htraversed, hview⟩, hsound, horphans⟩
    have hview' : c'.view db = (c.view db).connect visited := funext hview
    constructor
    case sound => exact hsound
    case tree =>
      rw [hview']
      exact (h.tree.connect hconn htraversed).congr (fun _ => Iff.rfl) hstale
    case content =>
      rw [hview']
      exact h.content.connect visited
    case orphans =>
      intro s
      rw [horphans, hview', orphan_connect]
      exact h.orphans s
  · rw [if_neg hcompleted]
    refine ⟨h.sound, (h.tree.settle ?_).congr (fun _ => Iff.rfl) hstale, h.content, h.orphans⟩
    rintro ⟨⟨m₁, hm₁, hconn⟩, m₂, hm₂, hfull⟩
    rw [hfound.view] at hm₁ hm₂
    cases hm₁
    cases hm₂
    exact hcompleted (Bool.and_eq_true_iff.mpr ⟨hfound.completed hfull, hconn⟩)

theorem handleChainingForSlot_eq (he : c.workingSet[slot]? = some e)
    (hold : e.oldSlotMeta = db.metas slot) : handleChainingForSlot db c slot = (do
      let c' ← linkSlot db c slot e.newSlotMeta
      settleSlot db { c' with orphans :=
        if (db.metas slot).elim false isOrphan then c'.orphans ++ [(slot, false)]
          else c'.orphans } slot) := by
  unfold handleChainingForSlot linkSlot settleSlot
  rw [he, ← hold]
  have hexpect : expect "Slot must exist in the working_set hashmap" (some e) =
      (.ok e : Except Panic _) := rfl
  rw [hexpect, ok_bind]
  dsimp only
  cases hwas : e.oldSlotMeta.elim false isOrphan <;>
    by_cases hlink : slot ≠ 0 ∧
        (e.oldSlotMeta = none ∨ e.oldSlotMeta.elim false isOrphan = true) <;>
    rw [hwas] at hlink
  · rw [if_pos hlink, if_pos hlink]
    rfl
  · rw [if_neg hlink, if_neg hlink]
    rfl
  · rw [if_pos hlink, if_pos hlink]
    rfl
  · rw [if_neg hlink, if_neg hlink]
    rfl

/-- **One slot of the call.** -/
theorem handleChainingForSlot_returns (hw : Inserted db working)
    (h : ChainedSlots db working done done c) (hslot : working[slot]? ≠ none) (hnew : slot ∉ done) :
    Returns (handleChainingForSlot db c slot)
      (ChainedSlots db working (done ++ [slot]) (done ++ [slot])) fun _ => False := by
  obtain ⟨m, hfound⟩ := h.content.found hw hslot
  obtain ⟨e₀, he₀⟩ := Option.ne_none_iff_exists'.mp hslot
  have hsource := h.sound.source slot
  unfold entrySource at hsource
  rw [he₀] at hsource
  obtain ⟨e, he, hsame⟩ := Option.map_eq_some_iff.mp hsource
  have hold : e.oldSlotMeta = db.metas slot :=
    (congrArg Prod.fst hsame).trans (hw slot e₀ he₀).1.old
  have hm : e.newSlotMeta = m := by
    have hview := hfound.view
    unfold view findCached at hview
    rw [he] at hview
    exact Option.some.inj hview
  rw [handleChainingForSlot_eq he hold, hm]
  exact (linkSlot_returns hw h hslot hnew hfound).bind fun c' hc' => settleSlot_returns hw hc' hslot

end Loop

/-! ### The whole loop -/

/-- The slots of a call that got shreds. -/
def Batch.working (b : Batch) : ExtTreeMap Nat SlotMetaWorkingSetEntry :=
  b.slotMetaWorkingSet.filter fun _ entry => entry.didInsertOccur

theorem getElem?_working {slot : Nat} :
    b.working[slot]? = some e ↔ b.slotMetaWorkingSet[slot]? = some e ∧ e.didInsertOccur := by
  unfold Batch.working
  rw [ExtTreeMap.getElem?_filter', Option.filter_eq_some_iff]

theorem Pending.inserted {play : Shred → Prop} (h : Pending db play log b new) :
    Inserted db b.working := by
  intro slot e he
  obtain ⟨hentry, hinserted⟩ := getElem?_working.mp he
  exact ⟨h.entries slot e hentry, hinserted⟩

/-- What `handle_chaining` leaves to be written. -/
structure Chaining.Done (db : Blockstore) (working : ExtTreeMap Nat SlotMetaWorkingSetEntry)
    (c : Chaining) : Prop where
  sound : c.Sound working
  tree : SlotTree (c.view db) (fun _ => False) fun _ => False
  content : SameContent ((start working).view db) (c.view db)
  orphans : ∀ s, s ∈ setOrphans db.orphans c.orphans ↔ (c.view db).orphan s

/-- **The slots of a call are linked and connected**, in whatever order they are visited. -/
theorem handleChaining_returns (env : InsertEnv) {play : Shred → Prop} (hroot : Rooted db)
    (h : Pending db play log b new) :
    Returns (handleChaining env b) (Chaining.Done db b.working) fun _ => False := by
  have hperm := env.slotOrder.perm b.working.keys
  have hkeys : ∀ s, s ∈ env.slotOrder.visit b.working.keys ↔ b.working[s]? ≠ none := by
    intro s
    rw [hperm.mem_iff, ← mem_toFinset, mem_keys_toFinset]
  have hloop := Returns.foldlM (P := fun done c => ChainedSlots db b.working done done c)
    (env.slotOrder.visit b.working.keys) [] (ChainedSlots.start h.inserted hroot)
    fun before slot after c hsplit hc => by
      have hnodup : (before ++ slot :: after).Nodup :=
        hsplit ▸ hperm.nodup_iff.mpr ExtTreeMap.nodup_keys
      refine handleChainingForSlot_returns h.inserted hc ((hkeys slot).mp ?_) fun hmem => ?_
      · rw [nil_append] at hsplit
        rw [hsplit]
        simp
      · exact disjoint_of_nodup_append hnodup hmem mem_cons_self
  unfold handleChaining
  rw [h.db_eq]
  refine hloop.imp fun c hc => ?_
  constructor
  case sound => exact hc.sound
  case tree =>
    refine hc.tree.congr (fun s => ?_) fun s => ?_
    · exact iff_false_intro fun hs => hs.2 ((hkeys s).mpr hs.1.1)
    · exact iff_false_intro fun hs => hs.2 ((hkeys s).mpr hs.1)
  case content => exact hc.content
  case orphans =>
    intro s
    refine (hc.orphans s).trans (or_iff_left fun hs => ?_)
    exact hs.2.1 ((hkeys s).mpr hs.1)

end Panoptes.Ledger
