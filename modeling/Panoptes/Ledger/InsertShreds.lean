import Panoptes.Ledger.SlotTree

/-!
# Whole calls of `insert_shreds`

A call keeps what the database says of its shreds (`Committed`) and of the tree of slots (`Rooted`),
and returns unless two data shreds conflict that reach the blockstore in the same batch
(`Conflicting`): the check of one then reads the other from the database, where it is not stored
yet, and unwraps the missing value.

* `insertShreds_returns` — one call.
* `Inserts` — the states that calls reach from the empty blockstore, with the data shreds they
  wrote.

Principal results: `insertShreds_exists_ok`, `inserts_bookkeeping`, `inserts_slotTree`.
-/

set_option autoImplicit false

namespace Panoptes.Ledger

open Lib Sdk List Blockstore SlotMeta
open Std (ExtTreeMap ExtTreeSet)

/-! ## The coding shreds of a call -/

/-- The coding shreds of the cache with keys in `done` are inserted. -/
structure Coded (db : Blockstore) (cached : ExtTreeMap ShredKey Shred) (done : List ShredKey)
    (b : Batch) : Prop where
  coding : ∀ slot i, i ∈ (b.indexEntry slot).index.coding ↔
    db.codeShreds[shredKey slot i]? ≠ none ∨ cached[shredKey slot i]? ≠ none
  writes : b.writeBatch.codeShreds = done.filterMap fun key => (cached[key]?).map
    fun s => (key, s.payload)
  inserted : ∀ slot i, shredKey slot i ∈ done → cached[shredKey slot i]? ≠ none →
    (b.indexEntry slot).didInsertOccur

variable {cached : ExtTreeMap ShredKey Shred} {done : List ShredKey} {b : Batch} {db : Blockstore}
  {play : Shred → Prop} {log shreds : List Shred} {slot s : Nat} {c : Chaining} {m : SlotMeta}
  {M : Metas}

section Coding

variable {new : List Shred}

theorem Pending.recordCoding (h : Pending db play log b new) (shred : Shred) :
    Pending db play log (b.recordCoding shred) new :=
  { h with }

/-- **One cached coding shred.** -/
theorem checkInsertCodingShred_returns (hpending : Pending db play log b new)
    (hcoded : Coded db cached done b) {i : Nat}
    {shred : Shred} (hmem : cached[shredKey slot i]? = some shred)
    (hshred : CachedCoding db slot i shred) : Returns (checkInsertCodingShred b shred)
      (fun b' => Pending db play log b' new ∧ Coded db cached (done ++ [shredKey slot i]) b')
        fun _ => False := by
  obtain ⟨-, rfl, rfl, hcode, hposition, -⟩ := hshred
  unfold checkInsertCodingShred
  rw [assert_pos ⟨hcode, hposition⟩]
  refine ⟨(hpending.recordCoding shred).setIndexEntry rfl (hpending.indexSlot shred.slot)
    fun _ => rfl, ?_⟩
  constructor
  case coding =>
    intro slot i
    rw [indexEntry_setIndexEntry]
    by_cases hslot : slot = shred.slot
    · subst hslot
      rw [if_pos rfl]
      refine mem_setPresent_true.trans ?_
      constructor
      · rintro (rfl | hold)
        · exact .inr (hmem ▸ Option.some_ne_none shred)
        · exact (hcoded.coding _ i).mp hold
      · exact fun h => .inr ((hcoded.coding _ i).mpr h)
    · rw [if_neg hslot]
      exact hcoded.coding slot i
  case writes =>
    change b.writeBatch.codeShreds ++ [(shredKey shred.slot shred.index, shred.payload)] = _
    rw [hcoded.writes]
    simp [hmem]
  case inserted =>
    intro slot i hdone hcached
    rw [indexEntry_setIndexEntry]
    split
    · rfl
    · rename_i hslot
      rcases mem_append.mp hdone with hdone | hdone
      · exact hcoded.inserted slot i hdone hcached
      · exact absurd (shredKey_inj.mp (mem_singleton.mp hdone)).1 hslot

theorem Coded.skip (h : Coded db cached done b) {key : ShredKey} (hkey : cached[key]? = none) :
    Coded db cached (done ++ [key]) b := by
  refine ⟨h.coding, ?_, fun slot i hdone hcached => ?_⟩
  · rw [h.writes]
    simp [hkey]
  · rcases mem_append.mp hdone with hdone | hdone
    · exact h.inserted slot i hdone hcached
    · rw [mem_singleton.mp hdone] at hcached
      exact absurd hkey hcached

/-- **The cached coding shreds** are all inserted. -/
theorem insertCodingShreds_returns (env : InsertEnv) (hpending : Pending db play log b new)
    (hcaching : Caching db b) :
    Returns (insertCodingShreds env b) (fun b' => Pending db play log b' new ∧
      Coded db b.justInsertedCodingShreds
        (env.codingShredOrder.visit b.justInsertedCodingShreds.keys) b')
      fun _ => False := by
  have hstart : Pending db play log b new ∧ Coded db b.justInsertedCodingShreds [] b :=
    ⟨hpending, hcaching.coding, hcaching.noCode, fun _ _ h => absurd h not_mem_nil⟩
  have hloop := Returns.foldlM
    (f := fun b' key =>
      (b.justInsertedCodingShreds[key]?).elim (.ok b') (checkInsertCodingShred b'))
    (P := fun done b' => Pending db play log b' new ∧ Coded db b.justInsertedCodingShreds done b')
    (env.codingShredOrder.visit b.justInsertedCodingShreds.keys) [] hstart
      fun before key _ b' _ hb' => by
      cases hkey : b.justInsertedCodingShreds[key]? with
      | some shred =>
        exact checkInsertCodingShred_returns hb'.1 hb'.2 hkey (hcaching.cached _ _ shred hkey)
      | none => exact ⟨hb'.1, hb'.2.skip hkey⟩
  rwa [nil_append] at hloop

end Coding

/-! ## The write batch -/

section Commit

variable {new : List Shred} {workingSet : ExtTreeMap Nat SlotMetaWorkingSetEntry}

/-- The metadata of the working set that is written. -/
def changedMetas (entries : List (Nat × SlotMetaWorkingSetEntry)) : List (Nat × SlotMeta) :=
  entries.filterMap fun x => if some x.2.newSlotMeta = x.2.oldSlotMeta then none
    else some (x.1, x.2.newSlotMeta)

theorem commitSlotMetaWorkingSet_returns
    (h : ∀ (slot : Nat) (e : SlotMetaWorkingSetEntry), workingSet[slot]? = some e →
      e.didInsertOccur) :
    commitSlotMetaWorkingSet workingSet = .ok (changedMetas workingSet.toList) := by
  have hentries : ∀ x ∈ workingSet.toList, x.2.didInsertOccur = true := fun x hx =>
    h x.1 x.2 (getElem?_of_mem_toList hx)
  have hloop : ∀ (entries : List (Nat × SlotMetaWorkingSetEntry)) puts,
      (∀ x ∈ entries, x.2.didInsertOccur = true) →
      entries.foldlM (fun puts x => do
        assert (x.2.didInsertOccur = true)
        return if some x.2.newSlotMeta = x.2.oldSlotMeta then puts
          else puts ++ [(x.1, x.2.newSlotMeta)]) puts =
      (.ok (puts ++ changedMetas entries) : Except Panic _) := by
    intro entries
    induction entries with
    | nil =>
      intro puts _
      exact congrArg Except.ok (append_nil puts).symm
    | cons x entries ih =>
      intro puts hx
      rw [foldlM_cons]
      rw [assert_pos (hx x mem_cons_self)]
      refine (ih _ fun y hy => hx y (mem_cons_of_mem x hy)).trans ?_
      unfold changedMetas
      by_cases hsame : some x.2.newSlotMeta = x.2.oldSlotMeta
      · simp [hsame]
      · simp [hsame]
  exact (hloop workingSet.toList [] hentries).trans (congrArg Except.ok (nil_append _))

theorem mem_changedMetas :
    (slot, m) ∈ changedMetas workingSet.toList ↔
      ∃ e : SlotMetaWorkingSetEntry, workingSet[slot]? = some e ∧ e.newSlotMeta = m ∧
        some m ≠ e.oldSlotMeta := by
  unfold changedMetas
  rw [mem_filterMap]
  constructor
  · rintro ⟨⟨s, e⟩, hmem, heq⟩
    by_cases hsame : some e.newSlotMeta = e.oldSlotMeta
    · rw [if_pos hsame] at heq
      cases heq
    · rw [if_neg hsame] at heq
      cases heq
      exact ⟨e, getElem?_of_mem_toList hmem, rfl, hsame⟩
  · rintro ⟨e, he, rfl, hne⟩
    exact ⟨(slot, e), exists_mem_toList he, if_neg hne⟩

/-- The metadata of the database after the call is what the call saw at its end. -/
theorem slotMetas_committed {working : ExtTreeMap Nat SlotMetaWorkingSetEntry}
    (hw : Inserted db working) (hsound : c.Sound working) (s : Nat) :
    (putAll db.slotMetas (c.newChainedSlots.toList ++ changedMetas c.workingSet.toList))[s]? =
      c.view db s := by
  have hchained : ∀ put ∈ c.newChainedSlots.toList, c.workingSet[put.1]? = none := by
    intro put hput
    refine hsound.disjoint put.1 ?_
    rw [getElem?_of_mem_toList hput]
    exact Option.some_ne_none _
  unfold Chaining.view Chaining.findCached
  rw [putAll_append]
  cases he : c.workingSet[s]? with
  | some e =>
    have hrest : ∀ put ∈ c.newChainedSlots.toList, put.1 ≠ s := by
      rintro put hput rfl
      rw [hchained put hput] at he
      cases he
    by_cases hsame : some e.newSlotMeta = e.oldSlotMeta
    · have hnot : ∀ put ∈ changedMetas c.workingSet.toList, put.1 ≠ s := by
        rintro ⟨s', m⟩ hput rfl
        obtain ⟨e', he', rfl, hne⟩ := mem_changedMetas.mp hput
        rw [he] at he'
        cases he'
        exact hne hsame
      rw [getElem?_putAll_of_not_mem hnot, getElem?_putAll_of_not_mem hrest]
      -- The metadata that did not change is the one that the entry was made from.
      have hsource := hsound.source s
      unfold entrySource at hsource
      rw [he] at hsource
      obtain ⟨e₀, he₀, heq⟩ := Option.map_eq_some_iff.mp hsource.symm
      have hold : db.slotMetas[s]? = e.oldSlotMeta :=
        (hw s e₀ he₀).1.old.symm.trans (congrArg Prod.fst heq)
      rw [hold, ← hsame]
      rfl
    · refine getElem?_putAll_of_mem (mem_changedMetas.mpr ⟨e, he, rfl, hsame⟩) ?_
      rintro ⟨s', m⟩ hput rfl
      obtain ⟨e', he', rfl, -⟩ := mem_changedMetas.mp hput
      rw [he] at he'
      cases he'
      rfl
  | none =>
    have hnot : ∀ put ∈ changedMetas c.workingSet.toList, put.1 ≠ s := by
      rintro ⟨s', m⟩ hput rfl
      obtain ⟨e', he', -⟩ := mem_changedMetas.mp hput
      rw [he] at he'
      cases he'
    rw [getElem?_putAll_of_not_mem hnot]
    cases hn : c.newChainedSlots[s]? with
    | some m =>
      refine getElem?_putAll_of_mem (exists_mem_toList hn) ?_
      rintro put hput rfl
      rw [getElem?_of_mem_toList hput] at hn
      exact Option.some.inj hn
    | none =>
      refine getElem?_putAll_of_not_mem ?_
      rintro put hput rfl
      rw [getElem?_of_mem_toList hput] at hn
      cases hn

def changedIndexes (b : Batch) : List (Nat × Index) :=
  (b.indexWorkingSet.toList.filter fun e => e.2.didInsertOccur).map fun e => (e.1, e.2.index)

theorem mem_changedIndexes {index : Index} :
    (slot, index) ∈ changedIndexes b ↔ ∃ e, b.indexWorkingSet[slot]? = some e ∧ e.didInsertOccur ∧
      e.index = index := by
  constructor
  · intro h
    obtain ⟨⟨s, e⟩, hmem, heq⟩ := mem_map.mp h
    obtain ⟨hmem, hinserted⟩ := mem_filter.mp hmem
    cases heq
    exact ⟨e, getElem?_of_mem_toList hmem, hinserted, rfl⟩
  · rintro ⟨e, he, hinserted, rfl⟩
    exact mem_map.mpr ⟨(slot, e), mem_filter.mpr ⟨exists_mem_toList he, hinserted⟩, rfl⟩

theorem indexes_committed (db : Blockstore) (b : Batch) (slot : Nat) :
    ((putAll db.indexes (changedIndexes b))[slot]?).getD (Index.new slot) =
      if (b.indexEntry slot).didInsertOccur then (b.indexEntry slot).index else db.index slot := by
  unfold Batch.indexEntry
  have hnot : (∀ e, b.indexWorkingSet[slot]? = some e → e.didInsertOccur = false) →
      (putAll db.indexes (changedIndexes b))[slot]? = db.indexes[slot]? := by
    intro hfresh
    refine getElem?_putAll_of_not_mem ?_
    rintro ⟨s, index⟩ hput rfl
    obtain ⟨e, he, hinserted, -⟩ := mem_changedIndexes.mp hput
    exact absurd (hinserted.symm.trans (hfresh e he)) (by decide)
  cases he : b.indexWorkingSet[slot]? with
  | none =>
    rw [hnot fun e h => absurd (he.symm.trans h) nofun]
    rfl
  | some e =>
    by_cases hinserted : e.didInsertOccur
    · have hput : (putAll db.indexes (changedIndexes b))[slot]? = some e.index := by
        refine getElem?_putAll_of_mem (mem_changedIndexes.mpr ⟨e, he, hinserted, rfl⟩) ?_
        rintro ⟨s, index⟩ hput rfl
        obtain ⟨e', he', -, rfl⟩ := mem_changedIndexes.mp hput
        rw [he] at he'
        cases he'
        rfl
      rw [hput]
      exact (if_pos hinserted).symm
    · rw [hnot fun e' he' => by
        rw [he] at he'
        cases he'
        exact Bool.eq_false_iff.mpr hinserted]
      exact (if_neg hinserted).symm

theorem dataShreds_committed (hdb : Committed db log)
    (hnodup : ((slotLog (log ++ new) slot).map Shred.index).Nodup) (i : Nat) :
    (putAll db.dataShreds (new.map dataWrite))[shredKey slot i]? =
      ((slotLog (log ++ new) slot).find? fun s => s.index = i).map Shred.payload := by
  rw [slotLog_append] at hnodup ⊢
  rw [find?_append]
  cases hfind : (slotLog new slot).find? fun s => s.index = i with
  | none =>
    have hnot : ∀ put ∈ new.map dataWrite, put.1 ≠ shredKey slot i := by
      intro put hput hkey
      obtain ⟨s, hs, rfl⟩ := mem_map.mp hput
      obtain ⟨hslot, hindex⟩ := shredKey_inj.mp hkey
      exact absurd hindex (by simpa using find?_eq_none.mp hfind s (mem_slotLog.mpr ⟨hs, hslot⟩))
    rw [getElem?_putAll_of_not_mem hnot, Option.or_none]
    exact hdb.stored slot i
  | some s =>
    have hs : s ∈ slotLog new slot := mem_of_find?_eq_some hfind
    have hindex : s.index = i := by simpa using find?_some hfind
    have hold : (slotLog log slot).find? (fun s => s.index = i) = none := by
      rw [find?_eq_none]
      intro t ht heq
      rw [map_append, nodup_append] at hnodup
      exact hnodup.2.2 t.index (mem_map_of_mem ht) s.index (mem_map_of_mem hs)
        ((of_decide_eq_true heq).trans hindex.symm)
    rw [hold]
    have hput : (shredKey slot i, s.payload) ∈ new.map dataWrite := by
      refine mem_map.mpr ⟨s, (mem_slotLog.mp hs).1, ?_⟩
      unfold dataWrite
      rw [(mem_slotLog.mp hs).2, hindex]
    refine getElem?_putAll_of_mem hput ?_
    intro put hput' hkey
    obtain ⟨t, ht, rfl⟩ := mem_map.mp hput'
    obtain ⟨hslot, hindex'⟩ := shredKey_inj.mp hkey
    have hinj := inj_on_of_nodup_map hnodup (mem_append_right _ (mem_slotLog.mpr ⟨ht, hslot⟩))
      (mem_append_right _ hs) (hindex'.trans hindex.symm)
    exact congrArg Shred.payload hinj

/-- A book depends on the members of the index and on the content of the metadata only. -/
theorem Book.congr {dataIndex dataIndex' : ExtTreeSet Nat} {inserted : List Shred}
    (h : Book m dataIndex inserted)
    (hindex : ∀ i, i ∈ dataIndex' ↔ ∃ s ∈ inserted, s.index = i) (nextSlots : List Nat)
    (isConnected : Bool) :
    Book { m with nextSlots := nextSlots, isConnected := isConnected } dataIndex' inserted := by
  obtain rfl : dataIndex' = dataIndex :=
    ExtTreeSet.ext_mem fun i => (hindex i).trans (h.listed i).symm
  exact { h with }

/-- What the phases before the write leave. -/
structure Committing (db : Blockstore) (play : Shred → Prop) (log new : List Shred) (b : Batch)
    (c : Chaining) : Prop where
  pending : Pending db play log b new
  coded : ∃ cached done, Coded db cached done b ∧ (∀ slot i s, cached[shredKey slot i]? = some s →
    s.Parsed ∧ shredKey slot i ∈ done)
  done : c.Done db b.working

def committedDb (b : Batch) (c : Chaining) : Blockstore :=
  write { b.db with duplicateSlots := b.duplicateSlots } { b.writeBatch with
    orphans := c.orphans
    slotMetas := c.newChainedSlots.toList ++ changedMetas c.workingSet.toList
    erasureMetas := b.erasureMetas.toList
    indexes := changedIndexes b }

theorem slotLog_append_of_ne (hslot : ∀ s ∈ new, s.slot ≠ slot) :
    slotLog (log ++ new) slot = slotLog log slot := by
  have hnil : slotLog new slot = [] := filter_eq_nil_iff.mpr fun s hs => by simpa using hslot s hs
  rw [slotLog_append, hnil, append_nil]

namespace Committing

section

variable (h : Committing db play log new b c)
include h

theorem metas_eq (s : Nat) : (committedDb b c).metas s = c.view db s := by
  have hmetas := slotMetas_committed h.pending.inserted h.done.sound s
  rw [← h.pending.db_eq] at hmetas ⊢
  exact hmetas

theorem index_eq (slot : Nat) : (committedDb b c).index slot =
    if (b.indexEntry slot).didInsertOccur then (b.indexEntry slot).index else db.index slot := by
  have hindex := indexes_committed db b slot
  rw [← h.pending.db_eq] at hindex ⊢
  exact hindex

theorem listed (hdb : Committed db log) (slot i : Nat) :
    i ∈ ((committedDb b c).index slot).data ↔ ∃ s ∈ slotLog (log ++ new) slot, s.index = i := by
  rw [h.index_eq]
  by_cases hinserted : (b.indexEntry slot).didInsertOccur
  · rw [if_pos hinserted]
    exact (h.pending.book slot).listed i
  · have hslot : ∀ s ∈ new, s.slot ≠ slot := by
      rintro s hs rfl
      exact hinserted (h.pending.indexInserted s hs)
    rw [if_neg hinserted, slotLog_append_of_ne hslot]
    exact (hdb.book slot).listed i

theorem book (hdb : Committed db log) (slot : Nat) :
    Book ((committedDb b c).slotMeta slot) ((committedDb b c).index slot).data
      (slotLog (log ++ new) slot) := by
  -- Links and connectivity apart, the metadata is the working copy or that of the database.
  have hbase : Book (((Chaining.start b.working).view db slot).getD (newOrphan slot))
      ((committedDb b c).index slot).data (slotLog (log ++ new) slot) := by
    rw [view_start]
    cases he : b.working[slot]? with
    | some e =>
      have hbook := h.pending.book slot
      unfold Batch.slotMeta at hbook
      rw [(getElem?_working.mp he).1] at hbook
      exact hbook.congr (h.listed hdb slot) _ _
    | none =>
      have hslot : ∀ s ∈ new, s.slot ≠ slot := by
        rintro s hs rfl
        obtain ⟨e, hentry, hinserted⟩ := h.pending.metaInserted s hs
        rw [getElem?_working.mpr ⟨hentry, hinserted⟩] at he
        cases he
      have hlisted := h.listed hdb slot
      rw [slotLog_append_of_ne hslot] at hlisted ⊢
      exact (hdb.book slot).congr hlisted _ _
  rw [slotMeta_eq, h.metas_eq]
  cases hview : c.view db slot with
  | none =>
    rw [h.done.content.known slot hview] at hbase
    exact hbase
  | some m =>
    obtain ⟨nextSlots, isConnected, heq⟩ := h.done.content.content slot m hview
    rw [heq]
    exact hbase.congr hbase.listed nextSlots isConnected

theorem codeShreds_eq (hcoded : Coded db cached done b)
    (hdone : ∀ slot i s, cached[shredKey slot i]? = some s → shredKey slot i ∈ done)
    (slot i : Nat) : (committedDb b c).codeShreds[shredKey slot i]? =
      ((cached[shredKey slot i]?).map Shred.payload).or db.codeShreds[shredKey slot i]? := by
  change (putAll b.db.codeShreds b.writeBatch.codeShreds)[shredKey slot i]? = _
  rw [h.pending.db_eq, hcoded.writes]
  have hput : ∀ put ∈ done.filterMap (fun key => (cached[key]?).map fun s => (key, s.payload)),
      (cached[put.1]?).map Shred.payload = some put.2 := by
    intro put hmem
    obtain ⟨key, -, heq⟩ := mem_filterMap.mp hmem
    obtain ⟨s, hs, rfl⟩ := Option.map_eq_some_iff.mp heq
    rw [hs]
    rfl
  cases hkey : cached[shredKey slot i]? with
  | some s =>
    refine getElem?_putAll_of_mem (mem_filterMap.mpr ⟨shredKey slot i, hdone slot i s hkey, ?_⟩) ?_
    · rw [hkey]
      rfl
    · intro put hmem hk
      have heq := hput put hmem
      rw [hk, hkey] at heq
      exact (Option.some.inj heq).symm
  | none =>
    refine getElem?_putAll_of_not_mem fun put hmem hk => ?_
    have heq := hput put hmem
    rw [hk, hkey] at heq
    cases heq

/-- **The write** leaves a database that describes the new shreds too. -/
theorem committed (hdb : Committed db log) : Committed (committedDb b c) (log ++ new) := by
  obtain ⟨cached, done, hcoded, hcached⟩ := h.coded
  have hcode := h.codeShreds_eq hcoded fun slot i s hs => (hcached slot i s hs).2
  constructor
  case parsed => exact forall_mem_append.mpr ⟨hdb.parsed, h.pending.parsed⟩
  case book => exact h.book hdb
  case stored =>
    intro slot i
    change (putAll b.db.dataShreds b.writeBatch.dataShreds)[shredKey slot i]? = _
    rw [h.pending.db_eq, h.pending.writes]
    exact dataShreds_committed hdb (h.pending.book slot).nodup i
  case coding =>
    intro slot i
    rw [h.index_eq, hcode]
    by_cases hinserted : (b.indexEntry slot).didInsertOccur
    · rw [if_pos hinserted, hcoded.coding]
      cases cached[shredKey slot i]? <;> simp
    · have hnone : cached[shredKey slot i]? = none := by
        by_contra hsome
        obtain ⟨s, hs⟩ := Option.ne_none_iff_exists'.mp hsome
        exact hinserted (hcoded.inserted slot i (hcached slot i s hs).2 hsome)
      rw [if_neg hinserted, hnone]
      exact hdb.coding slot i
  case codeParsed =>
    intro slot i payload hpayload
    rw [hcode] at hpayload
    cases hkey : cached[shredKey slot i]? with
    | none =>
      rw [hkey] at hpayload
      exact hdb.codeParsed slot i payload hpayload
    | some s =>
      rw [hkey] at hpayload
      cases hpayload
      exact ⟨s, (hcached slot i s hkey).1.parse⟩
  case indexSlot =>
    intro slot
    rw [h.index_eq]
    split
    · exact h.pending.indexSlot slot
    · exact hdb.indexSlot slot

theorem rooted : Rooted (committedDb b c) := by
  have hmetas : (committedDb b c).metas = c.view db := funext h.metas_eq
  refine ⟨?_, fun s => ?_⟩
  · rw [hmetas]
    exact h.done.tree
  · rw [hmetas]
    change s ∈ setOrphans b.db.orphans c.orphans ↔ _
    rw [h.pending.db_eq]
    exact h.done.orphans s

end

end Committing

end Commit

/-! ## One call -/

section Call

theorem commit_eq (hw : Inserted db b.working) (hsound : c.Sound b.working) :
    commit b c = .ok { b.writeBatch with
      orphans := c.orphans
      slotMetas := c.newChainedSlots.toList ++ changedMetas c.workingSet.toList
      erasureMetas := b.erasureMetas.toList
      indexes := changedIndexes b } := by
  have hinserted : ∀ (slot : Nat) (e : SlotMetaWorkingSetEntry), c.workingSet[slot]? = some e →
      e.didInsertOccur := by
    intro slot e he
    have hsource := hsound.source slot
    unfold entrySource at hsource
    rw [he] at hsource
    obtain ⟨e₀, he₀, heq⟩ := Option.map_eq_some_iff.mp hsource.symm
    exact (congrArg Prod.snd heq).symm.trans (hw slot e₀ he₀).2
  unfold commit
  rw [commitSlotMetaWorkingSet_returns hinserted]
  rfl

/-- **One call** of an untrusted `insert_shreds`. -/
theorem insertShreds_returns (env : InsertEnv) (hdb : Committed db log) (hroot : Rooted db)
    (hshreds : ∀ s ∈ shreds, s.Parsed) :
    Returns (insertShreds env false db shreds)
      (fun r => ∃ new, r.writeBatch.dataShreds = new.map dataWrite ∧
        Committed r.result (log ++ new) ∧ Rooted r.result)
      fun _ => Conflicting env db shreds := by
  have hreceived : Returns (shreds.zipIdx.foldlM (insertShred env false)
      { batch := Batch.start db, newlyCompletedDataSets := [], insertedIndices := [] })
      (fun p => Receiving env db log shreds p.batch) fun _ => Conflicting env db shreds := by
    refine Returns.foldlM_inv (receiving_start hdb) fun x hx p hp => ?_
    have hmem : x.1 ∈ shreds := fst_mem_of_mem_zipIdx hx
    exact insertShred_returns hdb hp hmem (hshreds x.1 hmem)
  refine hreceived.bind fun p hp => (recoverAndInsert_returns hdb hp).bind ?_
  rintro p' ⟨new, -, hpending, hcaching⟩
  refine ((insertCodingShreds_returns env hpending hcaching).imp_error fun _ => False.elim).bind ?_
  rintro b ⟨hpending', hcoded⟩
  refine ((handleChaining_returns env hroot hpending').imp_error fun _ => False.elim).bind
    fun c hc => ?_
  rw [commit_eq hpending'.inserted hc.sound]
  have hcommitting : Committing db (InPlay env db shreds) log new b c := by
    refine ⟨hpending',
      ⟨_, _, hcoded, fun slot i s hs => ⟨(hcaching.cached slot i s hs).parsed, ?_⟩⟩, hc⟩
    rw [(env.codingShredOrder.perm _).mem_iff, ← mem_toFinset, mem_keys_toFinset, hs]
    exact Option.some_ne_none s
  exact ⟨new, hpending'.writes, hcommitting.committed hdb, hcommitting.rooted⟩

end Call

/-! ## Runs -/

/-- The states that untrusted calls reach from the empty blockstore, with the data shreds that they
wrote, in their order.  A call that aborts reaches none. -/
inductive Inserts : Blockstore → List (ShredKey × List UInt8) → Prop
  | empty : Inserts .empty []
  | call {db : Blockstore} {writes : List (ShredKey × List UInt8)} (env : InsertEnv)
    (shreds : List Shred)
      {r : Insertion} (hrun : Inserts db writes) (hshreds : ∀ s ∈ shreds, s.Parsed)
      (hcall : insertShreds env false db shreds = .ok r) :
        Inserts r.result (writes ++ r.writeBatch.dataShreds)

theorem committed_empty : Committed .empty [] := by
  have hindex : ∀ slot, empty.index slot = Index.new slot := fun slot => by
    unfold Blockstore.index Blockstore.empty
    simp
  constructor
  case parsed => exact fun s hs => absurd hs not_mem_nil
  case book =>
    intro slot
    exact Book.new slot U64_MAX
  case stored => exact fun slot i => ExtTreeMap.getElem?_empty
  case coding =>
    intro slot i
    rw [hindex]
    simp [Index.new, empty]
  case codeParsed =>
    intro slot i payload h
    cases h
  case indexSlot =>
    intro slot
    rfl

theorem rooted_empty : Rooted .empty := by
  have hnone : ∀ s, empty.metas s = none := fun s => ExtTreeMap.getElem?_empty
  have hconn : ∀ s, ¬ empty.metas.connected s := by
    rintro s ⟨m, hm, -⟩
    cases hm
  have hparent : ∀ c p, empty.metas.parent c ≠ some p := by
    intro c p hp
    cases hp
  refine ⟨⟨fun c p h => absurd h (hparent c p), ?_, ?_, fun h => absurd (hnone 0) h,
    fun s h => absurd h (hconn s),
    fun p c h => absurd h.parent (hparent c p)⟩, fun s => ?_⟩
  · intro p
    exact nodup_nil
  · intro p c
    exact iff_of_false not_mem_nil fun h => hparent c p h.parent
  · refine iff_of_false ExtTreeSet.not_mem_empty ?_
    rintro ⟨m, hm, -⟩
    cases hm

/-- **Every state of a run** describes the shreds that were written, and its slots form a tree. -/
theorem Inserts.committed {writes : List (ShredKey × List UInt8)} (h : Inserts db writes) :
    ∃ log, writes = log.map dataWrite ∧ Committed db log ∧ Rooted db := by
  induction h with
  | empty => exact ⟨[], rfl, committed_empty, rooted_empty⟩
  | call env shreds hrun hshreds hcall ih =>
    obtain ⟨log, rfl, hdb, hroot⟩ := ih
    obtain ⟨new, hnew, hdb', hroot'⟩ := (insertShreds_returns env hdb hroot hshreds).of_ok hcall
    refine ⟨log ++ new, ?_, hdb', hroot'⟩
    rw [hnew, map_append]

/-! ### Calls that return -/

/-- **A call returns** in every state of a run, unless two data shreds conflict that it may
insert. -/
theorem insertShreds_exists_ok {db : Blockstore} {writes : List (ShredKey × List UInt8)}
    (hrun : Inserts db writes)
    (env : InsertEnv) (shreds : List Shred) (hshreds : ∀ s ∈ shreds, s.Parsed)
    (hfree : ¬ Conflicting env db shreds) : ∃ r, insertShreds env false db shreds = .ok r := by
  obtain ⟨log, -, hdb, hroot⟩ := hrun.committed
  obtain ⟨r, hr, -⟩ := (insertShreds_returns env hdb hroot hshreds).exists_ok fun _ => hfree
  exact ⟨r, hr⟩

def noCoder : ReedSolomon where
  new _ _ := .error (.session 0)
  encodeSep _ _ _ _ := .error (.session 0)
  reconstructData _ _ _ := .error (.session 0)
  encodeSep_lengths := nofun
  reconstructData_lengths := nofun

/-- A call without a leader schedule that visits its maps in the order of their keys. -/
def plainEnv : InsertEnv where
  lastRoot := 0
  leaderSchedule := none
  checkSignature _ _ _ := false
  timestamp _ _ := 0
  coder := noCoder
  erasureMetaOrder := ⟨id, fun _ => .refl _⟩
  codingShredOrder := ⟨id, fun _ => .refl _⟩
  slotOrder := ⟨id, fun _ => .refl _⟩

def bareShred (slot : UInt64) (index : UInt32) (parentOffset : UInt16)
    (isLastInSlot : Bool) : Shred :=
  Shred.newFromData slot index parentOffset [] false isLastInSlot 0 0 0

theorem parsed_bareShred {slot : UInt64} {index : UInt32} {parentOffset : UInt16}
    {isLastInSlot : Bool}
    (h : parentOffset.toNat ≤ slot.toNat) :
    (bareShred slot index parentOffset isLastInSlot).Parsed :=
  ⟨_, (Shred.isDataShred_newFromData slot index parentOffset [] _ _ _ _ _ (Nat.zero_le _) h).parse⟩

theorem inPlay_plainEnv {t : Shred} (h : InPlay plainEnv db shreds t) : t ∈ shreds := by
  rcases h with h | ⟨leaderAt, -, hschedule, -⟩
  · exact h.1
  · cases hschedule

theorem insertShreds_exists_ok_two_shreds :
    ∃ r, insertShreds plainEnv false .empty [bareShred 5 0 1 false, bareShred 5 1 1 true] =
      .ok r := by
  refine insertShreds_exists_ok .empty plainEnv _ ?_ ?_
  · exact forall_mem_concat.mpr
      ⟨forall_mem_singleton.mpr (parsed_bareShred (by decide)), parsed_bareShred (by decide)⟩
  · rintro ⟨s, t, hs, ht, hconflict⟩
    have hlast := hconflict.lastInSlot
    have hindex := hconflict.index
    rcases mem_cons.mp (inPlay_plainEnv hs.inPlay) with rfl | hs
    · exact absurd hlast (by decide)
    · rw [mem_singleton.mp hs] at hindex
      rcases mem_cons.mp (inPlay_plainEnv ht.inPlay) with rfl | ht
      · exact absurd hindex (by decide)
      · rw [mem_singleton.mp ht] at hindex
        exact absurd hindex (Nat.lt_irrefl _)

/-- A shred beyond the one that ends the slot, in the same batch: the ending one is not in the
database yet. -/
theorem insertShreds_aborts_beyond_last :
    (∀ s ∈ [bareShred 5 0 1 true, bareShred 5 1 1 false], s.Parsed) ∧
      insertShreds plainEnv false .empty [bareShred 5 0 1 true, bareShred 5 1 1 false] =
        .error .unwrapNone := by
  refine ⟨forall_mem_cons.mpr ⟨?_, forall_mem_singleton.mpr ?_⟩,
    eq_error_of_panicOf (by decide +kernel)⟩
  · exact parsed_bareShred (by decide)
  · exact parsed_bareShred (by decide)

/-! ### The bookkeeping of a run -/

/-- Whether the bytes are those of a shred with the flag. -/
def flagged (flag : Shred → Bool) (payload : List UInt8) : Bool :=
  (Shred.newFromSerializedShred payload).toOption.elim false flag

/-- The index of the first shred that was written to a slot with the last-in-slot flag; `u64::MAX`
if there is none. -/
def firstLastIndex (writes : List (ShredKey × List UInt8)) (slot : Nat) : Nat :=
  ((writes.find? fun w => (ofLex w.1).1 == slot && flagged Shred.lastInSlot w.2).map fun w =>
    (ofLex w.1).2).getD U64_MAX

structure ExactMeta (db : Blockstore) (writes : List (ShredKey × List UInt8)) (slot : Nat)
    (m : SlotMeta) : Prop where
  consumed : IsLeast { i | i ∉ (db.index slot).data } m.consumed
  received : (m.received = 0 ∧ ∀ i, i ∉ (db.index slot).data) ∨
    ∃ i, IsGreatest { i | i ∈ (db.index slot).data } i ∧ m.received = i + 1
  completed_sorted : m.completedDataIndexes.Pairwise (· < ·)
  completed : ∀ i, i ∈ m.completedDataIndexes ↔
    ∃ payload, db.dataShreds[shredKey slot i]? = some payload ∧
    (flagged Shred.dataComplete payload ∨ flagged Shred.lastInSlot payload)
  lastIndex : m.lastIndex = firstLastIndex writes slot
  beyond : ∀ i, db.dataShreds[shredKey slot i]? ≠ none → i ≤ m.lastIndex
  full : m.isFull ↔ m.lastIndex ≠ U64_MAX ∧ ∀ i ≤ m.lastIndex,
    db.dataShreds[shredKey slot i]? ≠ none

theorem flagged_payload {s : Shred} (h : s.Parsed) (flag : Shred → Bool) :
    flagged flag s.payload = flag s := by
  unfold flagged
  rw [h.parse]
  rfl

theorem firstLastIndex_dataWrite (hparsed : ∀ s ∈ log, s.Parsed) (slot : Nat) :
    firstLastIndex (log.map dataWrite) slot =
      (((slotLog log slot).find? Shred.lastInSlot).map Shred.index).getD U64_MAX := by
  unfold firstLastIndex
  induction log with
  | nil => rfl
  | cons s log ih =>
    have ih' := ih fun t ht => hparsed t (mem_cons_of_mem s ht)
    have hslot : ((ofLex (dataWrite s).1).1 == slot && flagged Shred.lastInSlot (dataWrite s).2) =
        (decide (s.slot = slot) && s.lastInSlot) := by
      change (decide (s.slot = slot) && flagged Shred.lastInSlot s.payload) = _
      rw [flagged_payload (hparsed s mem_cons_self)]
    rw [map_cons, find?_cons]
    unfold slotLog at ih' ⊢
    by_cases heq : s.slot = slot
    · rw [filter_cons_of_pos (by simpa using heq), find?_cons, hslot]
      cases hlast : s.lastInSlot with
      | true =>
        rw [decide_eq_true heq]
        rfl
      | false =>
        rw [Bool.and_false]
        exact ih'
    · rw [filter_cons_of_neg (by simpa using heq), hslot, decide_eq_false heq]
      exact ih'

section Exact

theorem Committed.data_iff (hdb : Committed db log) (slot i : Nat) :
    i ∈ (db.index slot).data ↔ db.dataShreds[shredKey slot i]? ≠ none := by
  rw [Ne, hdb.dataShreds_eq_none_iff, (hdb.book slot).listed]
  simp

theorem Committed.completed_iff (hdb : Committed db log) (slot i : Nat) :
    i ∈ (db.slotMeta slot).completedDataIndexes ↔
      ∃ payload, db.dataShreds[shredKey slot i]? = some payload ∧
      (flagged Shred.dataComplete payload ∨ flagged Shred.lastInSlot payload) := by
  rw [(hdb.book slot).completed_iff, hdb.stored]
  constructor
  · rintro ⟨s, hs, rfl, hflag⟩
    have hfind : (slotLog log slot).find? (fun t => t.index = s.index) = some s := by
      cases hf : (slotLog log slot).find? (fun t => t.index = s.index) with
      | none => exact absurd (decide_eq_true rfl) (find?_eq_none.mp hf s hs)
      | some t =>
        have hindex : t.index = s.index := by simpa using find?_some hf
        rw [inj_on_of_nodup_map (hdb.book slot).nodup (mem_of_find?_eq_some hf) hs hindex]
    have hparsed := hdb.parsed s (mem_slotLog.mp hs).1
    refine ⟨s.payload, by rw [hfind]; rfl, ?_⟩
    rw [flagged_payload hparsed, flagged_payload hparsed]
    exact hflag.symm
  · rintro ⟨payload, hpayload, hflag⟩
    obtain ⟨s, hfind, rfl⟩ := Option.map_eq_some_iff.mp hpayload
    have hs := mem_of_find?_eq_some hfind
    have hparsed := hdb.parsed s (mem_slotLog.mp hs).1
    rw [flagged_payload hparsed, flagged_payload hparsed] at hflag
    exact ⟨s, hs, by simpa using find?_some hfind, hflag.symm⟩

theorem Committed.exactMeta (hdb : Committed db log) (hm : db.slotMetas[slot]? = some m) :
    ExactMeta db (log.map dataWrite) slot m := by
  have hslot : db.slotMeta slot = m := by
    unfold slotMeta
    rw [hm]
    rfl
  have hbook := hdb.book slot
  have hcompleted := hdb.completed_iff slot
  rw [hslot] at hbook hcompleted
  constructor
  case consumed =>
    refine ⟨hbook.consumed_missing, fun i hi => ?_⟩
    by_contra hlt
    exact hi (hbook.consumed_listed i (Nat.not_le.mp hlt))
  case received =>
    rcases Nat.eq_zero_or_pos m.received with hzero | hpos
    · refine .inl ⟨hzero, fun i hi => ?_⟩
      have hlt := hbook.received_above i hi
      omega
    · refine .inr ⟨m.received - 1, ⟨?_, fun i hi => ?_⟩, by omega⟩
      · exact hbook.received_listed.resolve_left hpos.ne'
      · have hlt := hbook.received_above i hi
        omega
  case completed_sorted => exact hbook.completed_sorted
  case completed => exact hcompleted
  case lastIndex => rw [firstLastIndex_dataWrite hdb.parsed, hbook.lastIndex_eq]
  case beyond => exact fun i hi => hbook.beyond i ((hdb.data_iff slot i).mpr hi)
  case full =>
    rw [isFull_iff]
    refine and_congr_right fun hknown => ?_
    constructor
    · intro hconsumed i hi
      exact (hdb.data_iff slot i).mp (hbook.consumed_listed i (by omega))
    · intro hall
      have hle : m.lastIndex < m.consumed := by
        by_contra hlt
        exact hbook.consumed_missing ((hdb.data_iff slot _).mpr (hall _ (Nat.not_lt.mp hlt)))
      have hge : m.consumed ≤ m.lastIndex + 1 := by
        by_contra hlt
        have hlisted := hbook.consumed_listed (m.lastIndex + 1) (Nat.not_le.mp hlt)
        exact absurd (hbook.beyond _ hlisted) (Nat.not_succ_le_self _)
      omega

end Exact

/-- **The bookkeeping of every slot is exact** in every state of a run. -/
theorem inserts_bookkeeping {db : Blockstore} {writes : List (ShredKey × List UInt8)}
    (hrun : Inserts db writes) (slot : Nat) :
    (∀ i, i ∈ (db.index slot).data ↔ db.dataShreds[shredKey slot i]? ≠ none) ∧
      (∀ i, i ∈ (db.index slot).coding ↔ db.codeShreds[shredKey slot i]? ≠ none) ∧
      (∀ m, db.slotMetas[slot]? = some m → ExactMeta db writes slot m) ∧
      (db.slotMetas[slot]? = none → ∀ i, db.dataShreds[shredKey slot i]? = none) := by
  obtain ⟨log, rfl, hdb, -⟩ := hrun.committed
  refine ⟨hdb.data_iff slot, hdb.coding slot, fun m hm => hdb.exactMeta hm, fun hnone i => ?_⟩
  by_contra hstored
  have hslot : db.slotMeta slot = newOrphan slot := by
    unfold slotMeta
    rw [hnone]
    rfl
  have hlt := (hdb.book slot).received_above i ((hdb.data_iff slot i).mpr hstored)
  rw [hslot] at hlt
  exact absurd hlt (Nat.not_lt_zero i)

/-- A slot, its child and its grandchild, the youngest first. -/
def threeSlots : List Shred :=
  [bareShred 3 0 1 false, bareShred 2 0 1 true, bareShred 1 0 1 true, bareShred 3 1 1 true]

theorem parsed_threeSlots : ∀ s ∈ threeSlots, s.Parsed := by
  intro s hs
  simp only [threeSlots, mem_cons, not_mem_nil, or_false] at hs
  rcases hs with rfl | rfl | rfl | rfl <;> exact parsed_bareShred (by decide)

theorem threeSlots_returns :
    panicOf (insertShreds plainEnv false .empty threeSlots) = none := by decide +kernel

theorem threeSlots_full :
    ((insertShreds plainEnv false .empty threeSlots).toOption.bind fun r =>
      r.result.slotMetas[3]?).any isFull := by decide +kernel

theorem inserts_bookkeeping_threeSlots :
    ∃ r m, insertShreds plainEnv false .empty threeSlots = .ok r ∧
    r.result.slotMetas[3]? = some m ∧ m.isFull ∧
      ExactMeta r.result ([] ++ r.writeBatch.dataShreds) 3 m := by
  obtain ⟨r, hr⟩ := exists_eq_ok_of_panicOf threeSlots_returns
  have hfull : (r.result.slotMetas[3]?).any isFull := by
    have h := threeSlots_full
    rw [hr] at h
    exact h
  cases hm : r.result.slotMetas[3]? with
  | none =>
    rw [hm] at hfull
    cases hfull
  | some m =>
    rw [hm] at hfull
    exact ⟨r, m, hr, hm, hfull,
      (inserts_bookkeeping (.call plainEnv threeSlots .empty parsed_threeSlots hr) 3).2.2.1 m hm⟩

/-! ### The tree of slots of a run -/

/-- The slots of the database form a tree, and its orphans and connected slots are exact. -/
structure ExactTree (db : Blockstore) : Prop where
  parent : ∀ (s : Nat) m, db.slotMetas[s]? = some m → s ≠ 0 → m.isParentSet →
    ∃ p, db.slotMetas[m.parentSlot]? = some p ∧ p.nextSlots.count s = 1
  children : ∀ (p : Nat) m, db.slotMetas[p]? = some m → ∀ c ∈ m.nextSlots,
    c ≠ 0 ∧ ∃ mc, db.slotMetas[c]? = some mc ∧ mc.isParentSet ∧ mc.parentSlot = p
  orphans : ∀ s, s ∈ db.orphans ↔ ∃ m, db.slotMetas[s]? = some m ∧ ¬ m.isParentSet
  connected : ∀ (s : Nat) m, db.slotMetas[s]? = some m → (m.isConnected ↔
    s = 0 ∨ m.isParentSet ∧ ∃ p, db.slotMetas[m.parentSlot]? = some p ∧ p.isConnected ∧ p.isFull)

theorem Metas.parent_of_set (hm : M s = some m) (hset : m.isParentSet) :
    M.parent s = some m.parentSlot :=
  Metas.parent_eq_some.mpr ⟨m, hm, by rw [isOrphan, hset]; rfl, rfl⟩

theorem Metas.set_of_parent {p : Nat} (hm : M s = some m) (hp : M.parent s = some p) :
    m.isParentSet ∧ m.parentSlot = p := by
  obtain ⟨m', hm', hknown, hparent⟩ := Metas.parent_eq_some.mp hp
  rw [hm] at hm'
  cases hm'
  exact ⟨by simpa [isOrphan] using hknown, hparent⟩

/-- **The tree of slots is exact** in every state of a run. -/
theorem inserts_slotTree {db : Blockstore} {writes : List (ShredKey × List UInt8)}
    (hrun : Inserts db writes) : ExactTree db := by
  obtain ⟨-, -, -, hroot⟩ := hrun.committed
  have htree := hroot.tree
  constructor
  case parent =>
    intro s m hm hne hset
    have hlink : Link db.metas (fun _ => False) s m.parentSlot :=
      ⟨hne, Metas.parent_of_set hm hset, id⟩
    obtain ⟨p, hp⟩ := Option.ne_none_iff_exists'.mp (hlink.parent_ne_none htree)
    have hmem := (htree.children m.parentSlot s).mpr hlink
    have hnodup := htree.nodup m.parentSlot
    unfold Metas.children at hmem hnodup
    rw [hp] at hmem hnodup
    exact ⟨p, hp, count_eq_one_of_mem hnodup hmem⟩
  case children =>
    intro p m hm c hc
    have hmem : c ∈ db.metas.children p := by
      unfold Metas.children
      rw [show db.metas p = some m from hm]
      exact hc
    have hlink := (htree.children p c).mp hmem
    obtain ⟨mc, hmc⟩ := Option.ne_none_iff_exists'.mp hlink.ne_none
    exact ⟨hlink.nonzero, mc, hmc, Metas.set_of_parent hmc hlink.parent⟩
  case orphans =>
    intro s
    rw [hroot.orphans]
    unfold Metas.orphan isOrphan
    simp [metas]
  case connected =>
    intro s m hm
    constructor
    · intro hconn
      rcases htree.connected s ⟨m, hm, hconn⟩ with
        hzero | ⟨p, hlink, ⟨mp, hmp, hconnp⟩, mp', hmp', hfullp⟩
      · exact .inl hzero
      · obtain ⟨hset, rfl⟩ := Metas.set_of_parent hm hlink.parent
        rw [hmp] at hmp'
        cases hmp'
        exact .inr ⟨hset, mp, hmp, hconnp, hfullp⟩
    · intro h
      by_cases hzero : s = 0
      · subst hzero
        have hmetas : db.metas 0 = some m := hm
        obtain ⟨m', hm', hconn⟩ := htree.root (hmetas ▸ Option.some_ne_none m)
        rw [hmetas] at hm'
        cases hm'
        exact hconn
      · obtain ⟨hset, p, hp, hconnp, hfullp⟩ := h.resolve_left hzero
        have hlink : Link db.metas (fun _ => False) s m.parentSlot :=
          ⟨hzero, Metas.parent_of_set hm hset, id⟩
        obtain ⟨m', hm', hconn⟩ :=
          htree.propagated m.parentSlot s hlink ⟨p, hp, hconnp⟩ ⟨p, hp, hfullp⟩ id
        rw [show db.metas s = some m from hm] at hm'
        cases hm'
        exact hconn

theorem inserts_slotTree_threeSlots :
    ∃ r, insertShreds plainEnv false .empty threeSlots = .ok r ∧ ExactTree r.result := by
  obtain ⟨r, hr⟩ := exists_eq_ok_of_panicOf threeSlots_returns
  exact ⟨r, hr, inserts_slotTree (.call plainEnv threeSlots .empty parsed_threeSlots hr)⟩

end Panoptes.Ledger
