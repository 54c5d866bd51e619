import Panoptes.Lib.IndexMap
import Panoptes.Lib.SortedMap
import Panoptes.Sdk.Pubkey

/-!
# The gossip table

`core/src/crds.rs`, `core/src/crds_shards.rs` and the labels of `core/src/crds_value.rs`.  The
values stand in one table by label; the shards, the nodes and the records are indices over the
table's positions.

* `CrdsValue`, `CrdsValueLabel`, `VersionedCrdsValue` — a value, its label, and the value with its
  hash and local times.  What a record says beside its owner and its clock is a parameter, and so is
  the hash of a serialized value.  So is the crate of the insertion-ordered maps, with its
  documented laws.
* `CrdsShards` — the positions by the leading bits of the hashes.
* `Crds` — `insertVersioned`, `remove`, `updateRecordTimestamp`.
* `Indexed` — every index says what stands at the positions; the three operations keep it and do not
  abort.
* `crds_indices_exact` — the indices after any operations.
-/

set_option autoImplicit false

namespace Panoptes.Gossip

open Lib Sdk IndexMap IndexSet
open Std (ExtTreeMap)

/-! ## Values -/

/-- What the records of all kinds have: an owner, a clock, and the rest. -/
structure Body (π : Type) where
  pubkey : Pubkey
  wallclock : Nat
  content : π
  deriving DecidableEq, Repr

inductive CrdsData (π : Type) where
  | contactInfo (info : Body π)
  | vote (index : Nat) (vote : Body π)
  | lowestSlot (index : Nat) (slots : Body π)
  | snapshotHashes (hashes : Body π)
  | accountsHashes (hashes : Body π)
  | epochSlots (index : Nat) (slots : Body π)
  | legacyVersion (version : Body π)
  | version (version : Body π)
  | nodeInstance (token : Nat) (node : Body π)
  deriving DecidableEq, Repr

inductive CrdsValueLabel where
  | contactInfo (pubkey : Pubkey)
  | vote (index : Nat) (pubkey : Pubkey)
  | lowestSlot (pubkey : Pubkey)
  | snapshotHashes (pubkey : Pubkey)
  | epochSlots (index : Nat) (pubkey : Pubkey)
  | accountsHashes (pubkey : Pubkey)
  | legacyVersion (pubkey : Pubkey)
  | version (pubkey : Pubkey)
  | nodeInstance (pubkey : Pubkey) (token : Nat)
  deriving DecidableEq, Repr

namespace CrdsValueLabel

def pubkey : CrdsValueLabel → Pubkey
  | contactInfo p => p
  | vote _ p => p
  | lowestSlot p => p
  | snapshotHashes p => p
  | epochSlots _ p => p
  | accountsHashes p => p
  | legacyVersion p => p
  | version p => p
  | nodeInstance p _ => p

def isContactInfo : CrdsValueLabel → Bool
  | contactInfo _ => true
  | _ => false

end CrdsValueLabel

namespace CrdsData

variable {π : Type}

def body : CrdsData π → Body π
  | contactInfo b => b
  | vote _ b => b
  | lowestSlot _ b => b
  | snapshotHashes b => b
  | accountsHashes b => b
  | epochSlots _ b => b
  | legacyVersion b => b
  | version b => b
  | nodeInstance _ b => b

/-- `if let CrdsData::ContactInfo(_) = data`. -/
def isContactInfo : CrdsData π → Bool
  | contactInfo _ => true
  | _ => false

end CrdsData

structure CrdsValue (π : Type) where
  signature : BitVec 512
  data : CrdsData π
  deriving DecidableEq, Repr

namespace CrdsValue

variable {π : Type}

def pubkey (value : CrdsValue π) : Pubkey := value.data.body.pubkey

def wallclock (value : CrdsValue π) : Nat := value.data.body.wallclock

def label (value : CrdsValue π) : CrdsValueLabel :=
  match value.data with
  | .contactInfo _ => .contactInfo value.pubkey
  | .vote index _ => .vote index value.pubkey
  | .lowestSlot _ _ => .lowestSlot value.pubkey
  | .snapshotHashes _ => .snapshotHashes value.pubkey
  | .accountsHashes _ => .accountsHashes value.pubkey
  | .epochSlots index _ => .epochSlots index value.pubkey
  | .legacyVersion _ => .legacyVersion value.pubkey
  | .version _ => .version value.pubkey
  | .nodeInstance token _ => .nodeInstance value.pubkey token

theorem pubkey_label (value : CrdsValue π) : value.label.pubkey = value.pubkey := by
  unfold label
  cases value.data <;> rfl

theorem isContactInfo_label (value : CrdsValue π) :
    value.label.isContactInfo = value.data.isContactInfo := by
  unfold label
  cases value.data <;> rfl

end CrdsValue

structure VersionedCrdsValue (π : Type) where
  value : CrdsValue π
  insertTimestamp : Nat
  localTimestamp : Nat
  valueHash : Hash
  deriving DecidableEq, Repr

namespace VersionedCrdsValue

variable {π : Type}

def partialCmp (self other : VersionedCrdsValue π) : Option Ordering :=
  if self.value.label ≠ other.value.label then none
  else if self.value.wallclock = other.value.wallclock then
    some (compare self.valueHash.toNat other.valueHash.toNat)
  else some (compare self.value.wallclock other.value.wallclock)

/-- `VersionedCrdsValue::new`, for the hash of a serialized value. -/
def new (hashOf : CrdsValue π → Hash) (localTimestamp : Nat) (value : CrdsValue π) :
    VersionedCrdsValue π :=
  ⟨value, localTimestamp, localTimestamp, hashOf value⟩

end VersionedCrdsValue

/-! ## Shards -/

/-- `a.checked_shr(n)` on `u64`. -/
def checkedShr (a : BitVec 64) (n : Nat) : Option (BitVec 64) :=
  if n < 64 then some (a >>> n) else none

/-- `CrdsFilter::hash_as_u64`: the first eight bytes, the least significant first. -/
def hashAsU64 (item : Hash) : BitVec 64 := BitVec.ofNat 64 (leNat ((pubkeyBytes item).take 8))

structure CrdsShards (C : IndexMapCrate) where
  shards : List (IndexMap C Nat (BitVec 64))
  shardBits : Nat
  length_shards : shards.length = 2 ^ shardBits

variable {C : IndexMapCrate}

open CrdsShards

namespace CrdsShards

def new (shardBits : Nat) : CrdsShards C :=
  ⟨List.replicate (2 ^ shardBits) empty, shardBits, List.length_replicate⟩

def shardIndex (shardBits : Nat) (hash : BitVec 64) : Nat :=
  ((checkedShr hash (64 - shardBits)).getD 0).toNat

def setShard (s : CrdsShards C) (i : Nat) (shard : IndexMap C Nat (BitVec 64)) : CrdsShards C :=
  ⟨s.shards.set i shard, s.shardBits, by rw [List.length_set]; exact s.length_shards⟩

variable {π : Type}

def insert (s : CrdsShards C) (i : Nat) (value : VersionedCrdsValue π) :
    Except Panic (CrdsShards C) := do
  let hash := hashAsU64 value.valueHash
  let shard ← index s.shards (shardIndex s.shardBits hash)
  .ok (s.setShard (shardIndex s.shardBits hash) (shard.insert i hash))

def remove (s : CrdsShards C) (i : Nat) (value : VersionedCrdsValue π) :
    Except Panic (CrdsShards C) := do
  let hash := hashAsU64 value.valueHash
  let shard ← index s.shards (shardIndex s.shardBits hash)
  .ok (s.setShard (shardIndex s.shardBits hash) (shard.swapRemove i))

end CrdsShards

/-! ## The table -/

def CRDS_SHARDS_BITS : Nat := 8

inductive CrdsError where
  | insertFailed
  deriving DecidableEq, Repr

structure Crds (C : IndexMapCrate) (π : Type) where
  table : IndexMap C CrdsValueLabel (VersionedCrdsValue π)
  numInserts : Nat
  shards : CrdsShards C
  /-- The positions of the values that are a node's contact info. -/
  nodes : IndexSet C Nat
  /-- The positions of the values of an owner. -/
  records : ExtTreeMap Pubkey (IndexSet C Nat)

/-- An owner's entry of the records after a position has left it: an empty set leaves the map. -/
def removeRecord (records : ExtTreeMap Pubkey (IndexSet C Nat)) (pubkey : Pubkey)
    (entry : IndexSet C Nat) : ExtTreeMap Pubkey (IndexSet C Nat) :=
  if entry.len = 0 then records.erase pubkey else records.insert pubkey entry

namespace Crds

variable {π : Type}

def default : Crds C π := ⟨IndexMap.empty, 0, new CRDS_SHARDS_BITS, IndexMap.empty, ∅⟩

variable (crds : Crds C π)

def insertVersioned (newValue : VersionedCrdsValue π) :
    Except Panic (Crds C π × Except CrdsError (Option (VersionedCrdsValue π))) :=
  let label := newValue.value.label
  match crds.table.getFull label with
  | none => do
    let entryIndex := crds.table.len
    let shards ← crds.shards.insert entryIndex newValue
    let nodes := if newValue.value.data.isContactInfo then crds.nodes.add entryIndex else crds.nodes
    let pubkey := newValue.value.pubkey
    let records := crds.records.insert pubkey ((crds.records[pubkey]?.getD empty).add entryIndex)
    .ok (⟨crds.table.insert label newValue, crds.numInserts + 1, shards, nodes, records⟩, .ok none)
  | some (entryIndex, current) =>
    if current.partialCmp newValue = some .lt then do
      let shards ← crds.shards.remove entryIndex current
      let shards ← shards.insert entryIndex newValue
      -- As long as the pubkey does not change, `records` does not need to be updated.
      assert (current.value.pubkey = newValue.value.pubkey)
      .ok ({ crds with table := crds.table.insert label newValue, numInserts := crds.numInserts + 1, shards := shards },
        .ok (some current))
    else .ok (crds, .error .insertFailed)

def insert (hashOf : CrdsValue π → Hash) (crds : Crds C π) (value : CrdsValue π)
    (localTimestamp : Nat) :
    Except Panic (Crds C π × Except CrdsError (Option (VersionedCrdsValue π))) :=
  crds.insertVersioned (VersionedCrdsValue.new hashOf localTimestamp value)

/-- `update_record_timestamp`, on one value. -/
def touch (now : Nat) (entry : VersionedCrdsValue π) : VersionedCrdsValue π :=
  if entry.localTimestamp < now then { entry with localTimestamp := now } else entry

def updateRecordTimestamp (pubkey : Pubkey) (now : Nat) : Except Panic (Crds C π) :=
  match crds.records[pubkey]? with
  | none => .ok crds
  | some indices => do
    let table ← indices.keys.foldlM
      (fun (table : IndexMap C CrdsValueLabel (VersionedCrdsValue π)) i => do
        -- `self.table.index_mut(*index)`
        let _ ← index table.entries i
        .ok (table.modifyAt i (touch now))) crds.table
    .ok { crds with table := table }

/-- `remove`, the position of the removed value: it leaves every index. -/
def eraseIndices (i : Nat) (value : VersionedCrdsValue π) : Except Panic (Crds C π) := do
  let shards ← crds.shards.remove i value
  let nodes := if value.value.data.isContactInfo then crds.nodes.remove i else crds.nodes
  let pubkey := value.value.pubkey
  match crds.records[pubkey]? with
  | none => .error (.explicit "this should not happen!")
  | some entry =>
    .ok { crds with
      shards := shards, nodes := nodes, records := removeRecord crds.records pubkey
        (entry.remove i) }

/-- `remove`, the value that has moved from position `size` to position `i`. -/
def moveIndices (size i : Nat) (value : VersionedCrdsValue π) : Except Panic (Crds C π) := do
  let shards ← crds.shards.remove size value
  let shards ← shards.insert i value
  let nodes := if value.value.data.isContactInfo then (crds.nodes.remove size).add i else crds.nodes
  let pubkey := value.value.pubkey
  let records ← unwrap crds.records[pubkey]?
  .ok { crds with
    shards := shards, nodes := nodes,
      records := crds.records.insert pubkey ((records.remove size).add i) }

def remove (key : CrdsValueLabel) : Except Panic (Crds C π × Option (VersionedCrdsValue π)) :=
  match crds.table.getFull key with
  | none => .ok (crds, none)
  | some (i, value) => do
    let crds ← eraseIndices { crds with table := crds.table.swapRemove key } i value
    let size := crds.table.len
    -- unless it was the last, the last value has moved into the hole
    if i < size then
      let moved ← index crds.table.values i
      let crds ← crds.moveIndices size i moved
      .ok (crds, some value)
    else .ok (crds, some value)

end Crds

/-! ## The shards as an index -/

variable {i k j : Nat} {shard : IndexMap C Nat (BitVec 64)}
  {records : ExtTreeMap Pubkey (IndexSet C Nat)} {key : Pubkey} {s : IndexSet C Nat}

namespace CrdsShards

variable {π : Type} {s : CrdsShards C} {value : VersionedCrdsValue π}

/-- The hash that shard `k` has at a position. -/
def lookup (s : CrdsShards C) (k i : Nat) : Option (BitVec 64) :=
  s.shards[k]?.bind fun shard => shard.get? i

theorem shardIndex_lt {shardBits : Nat} (h : shardBits ≤ 64) (hash : BitVec 64) :
    shardIndex shardBits hash < 2 ^ shardBits := by
  unfold shardIndex checkedShr
  by_cases hzero : shardBits = 0
  · subst hzero
    simp
  · rw [if_pos (by omega), Option.getD_some, BitVec.toNat_ushiftRight, Nat.shiftRight_eq_div_pow]
    apply Nat.div_lt_of_lt_mul
    rw [← Nat.pow_add, Nat.sub_add_cancel h]
    exact hash.isLt

theorem lookup_setShard (hk : k < s.shards.length)
    (shard : IndexMap C Nat (BitVec 64)) (k' j : Nat) :
    (s.setShard k shard).lookup k' j = if k' = k then shard.get? j else s.lookup k' j := by
  unfold lookup setShard
  by_cases h : k' = k
  · rw [h]
    simp [List.getElem?_set_self hk]
  · rw [if_neg h]
    simp only [List.getElem?_set_ne (Ne.symm h)]

theorem shard_lookup (h : s.shards[k]? = some shard) (j : Nat) : shard.get? j = s.lookup k j := by
  rw [lookup, h, Option.bind_some]

theorem exists_shard (hbits : s.shardBits ≤ 64) (hash : BitVec 64) :
    ∃ shard, index s.shards (shardIndex s.shardBits hash) = .ok shard
      ∧ s.shards[shardIndex s.shardBits hash]? = some shard := by
  have hlt : shardIndex s.shardBits hash < s.shards.length := by
    rw [s.length_shards]
    exact shardIndex_lt hbits hash
  exact ⟨_, index_eq_ok hlt, List.getElem?_eq_getElem hlt⟩

/-- The shard and the hash under which a value is kept. -/
def Tag (shardBits : Nat) (value : VersionedCrdsValue π) (tag : Nat × BitVec 64) : Prop :=
  tag.1 = shardIndex shardBits tag.2 ∧ tag.2 = hashAsU64 value.valueHash

/-- A position that no shard has gets its value's shard and hash. -/
theorem insert_returns (hbits : s.shardBits ≤ 64) (hfree : ∀ k, s.lookup k i = none) :
    Returns (s.insert i value)
      (fun s' => s'.shardBits = s.shardBits ∧ ∀ (tag : Nat × BitVec 64) j,
        s'.lookup tag.1 j = some tag.2 ↔ if j = i then Tag s.shardBits value tag
          else s.lookup tag.1 j = some tag.2)
      fun _ => False := by
  obtain ⟨shard, hshard, hget⟩ := exists_shard hbits (hashAsU64 value.valueHash)
  have hlt := (List.getElem?_eq_some_iff.mp hget).1
  unfold insert
  dsimp only
  rw [hshard]
  refine ⟨rfl, fun tag j => ?_⟩
  rw [lookup_setShard hlt, get?_insert, shard_lookup hget]
  by_cases hj : j = i
  · subst hj
    rw [if_pos rfl, if_pos rfl, hfree]
    by_cases hk : tag.1 = shardIndex s.shardBits (hashAsU64 value.valueHash)
    · rw [if_pos hk, Option.some.injEq]
      exact ⟨fun h => ⟨h ▸ hk, h.symm⟩, fun h => h.2.symm⟩
    · rw [if_neg hk]
      exact ⟨(nomatch ·), fun h => absurd (h.2 ▸ h.1) hk⟩
  · split
    · rename_i hk
      rw [hk]
    · rfl

/-- A position leaves the shards if it was in its value's shard only. -/
theorem remove_returns (hbits : s.shardBits ≤ 64)
    (hwhere : ∀ k hash, s.lookup k i = some hash →
      k = shardIndex s.shardBits (hashAsU64 value.valueHash)) :
    Returns (s.remove i value)
      (fun s' => s'.shardBits = s.shardBits ∧ ∀ k j, s'.lookup k j = if j = i then none
        else s.lookup k j)
      fun _ => False := by
  obtain ⟨shard, hshard, hget⟩ := exists_shard hbits (hashAsU64 value.valueHash)
  have hlt := (List.getElem?_eq_some_iff.mp hget).1
  unfold remove
  dsimp only
  rw [hshard]
  refine ⟨rfl, fun k j => ?_⟩
  rw [lookup_setShard hlt, get?_swapRemove, shard_lookup hget]
  by_cases hj : j = i
  · subst hj
    rw [if_pos rfl, if_pos rfl]
    split
    · rfl
    · rename_i hk
      exact Option.eq_none_iff_forall_ne_some.mpr fun hash h => hk (hwhere k hash h)
  · split
    · rename_i hk
      rw [hk]
    · rfl

end CrdsShards

/-! ## The records as an index -/

section Records

variable {pubkey : Pubkey} {set : IndexSet C Nat}

def InRecords (records : ExtTreeMap Pubkey (IndexSet C Nat)) (pubkey : Pubkey) (i : Nat) : Prop :=
  ∃ set, records[pubkey]? = some set ∧ i ∈ set.keys

theorem inRecords_insert :
    InRecords (records.insert pubkey set) key j ↔ if key = pubkey then j ∈ set.keys
      else InRecords records key j := by
  unfold InRecords
  rw [getElem?_insert_ite]
  split
  · simp
  · rfl

theorem inRecords_erase :
    InRecords (records.erase pubkey) key j ↔ key ≠ pubkey ∧ InRecords records key j := by
  unfold InRecords
  rw [getElem?_erase_ite]
  split
  · rename_i h
    simp [h]
  · rename_i h
    simp [h]

theorem inRecords_iff_mem (h : records[pubkey]? = some set) :
    InRecords records pubkey j ↔ j ∈ set.keys := by
  simp [InRecords, h]

end Records

/-! ## All indices together -/

/-- Every index says what `at'` has at the positions. -/
structure IndexedBy {π : Type} (at' : Nat → Option (VersionedCrdsValue π))
    (crds : Crds C π) : Prop where
  shardBits : crds.shards.shardBits = CRDS_SHARDS_BITS
  shards : Tracks at' (CrdsShards.Tag CRDS_SHARDS_BITS) fun tag i =>
    crds.shards.lookup tag.1 i = some tag.2
  nodes : Tracks at' (fun v (_ : Unit) => v.value.data.isContactInfo = true)
    fun _ i => i ∈ crds.nodes.keys
  records : Tracks at' (fun v pubkey => v.value.pubkey = pubkey) (InRecords crds.records)
  nonempty : ∀ (pubkey : Pubkey) (set : IndexSet C Nat), crds.records[pubkey]? =
    some set → set.keys ≠ []

/-- Every index says what stands at the positions of the table. -/
structure Indexed {π : Type}
    (crds : Crds C π) : Prop extends IndexedBy crds.table.valueAt crds where
  labels : ∀ entry ∈ crds.table.entries, entry.2.value.label = entry.1

namespace IndexedBy

variable {π : Type} {at' : Nat → Option (VersionedCrdsValue π)} {crds : Crds C π}
  {v : VersionedCrdsValue π}

section

variable (h : IndexedBy at' crds)
include h

theorem shardBits_le : crds.shards.shardBits ≤ 64 := by
  rw [h.shardBits]
  decide

theorem lookup_eq_none (hi : at' i = none) (k : Nat) : crds.shards.lookup k i = none := by
  refine Option.eq_none_iff_forall_ne_some.mpr fun hash hlookup => ?_
  obtain ⟨v, hv, -⟩ := (h.shards (k, hash) i).mp hlookup
  rw [hi] at hv
  cases hv

theorem eq_shardIndex (hv : at' i = some v) (k : Nat) (hash : BitVec 64)
    (hlookup : crds.shards.lookup k i = some hash) :
    k = shardIndex crds.shards.shardBits (hashAsU64 v.valueHash) := by
  obtain ⟨v', hv', hk, hhash⟩ := (h.shards (k, hash) i).mp hlookup
  cases hv.symm.trans hv'
  rw [h.shardBits]
  exact hhash ▸ hk

theorem mem_nodes (hv : at' i = some v) : i ∈ crds.nodes.keys ↔ v.value.data.isContactInfo = true :=
  (h.nodes () i).trans (by rw [hv]; simp)

theorem notMem_nodes (hi : at' i = none) : i ∉ crds.nodes.keys := fun hmem => by
  obtain ⟨v, hv, -⟩ := (h.nodes () i).mp hmem
  rw [hi] at hv
  cases hv

theorem inRecords (hv : at' i = some v) {pubkey : Pubkey} :
    InRecords crds.records pubkey i ↔ v.value.pubkey = pubkey :=
  (h.records pubkey i).trans (by rw [hv]; simp)

theorem not_inRecords (hi : at' i = none) (pubkey : Pubkey) :
    ¬ InRecords crds.records pubkey i := fun hmem => by
  obtain ⟨v, hv, -⟩ := (h.records pubkey i).mp hmem
  rw [hi] at hv
  cases hv

end

end IndexedBy

namespace Indexed

variable {π : Type} {crds : Crds C π}

theorem default : Indexed (Crds.default : Crds C π) := by
  have hnone : ∀ i, (Crds.default : Crds C π).table.valueAt i = none := valueAt_empty
  have hrecords : ∀ pubkey : Pubkey, (Crds.default : Crds C π).records[pubkey]? = none := fun _ =>
    ExtTreeMap.getElem?_empty
  refine ⟨⟨rfl, .empty hnone fun tag i h => ?_, .empty hnone fun _ i h => ?_,
    .empty hnone fun pubkey i h => ?_, fun pubkey set h => ?_⟩, fun entry h => ?_⟩
  · obtain ⟨shard, hshard, hget⟩ := Option.bind_eq_some_iff.mp h
    have hempty : shard = empty := List.eq_of_mem_replicate (List.mem_of_getElem? hshard)
    subst hempty
    simp [get?] at hget
  · simp [Crds.default, keys] at h
  · obtain ⟨set, hset, -⟩ := h
    cases (hrecords pubkey).symm.trans hset
  · cases (hrecords pubkey).symm.trans h
  · simp [Crds.default] at h

theorem valueAt_len (crds : Crds C π) : crds.table.valueAt crds.table.len = none := by
  unfold valueAt len
  rw [List.getElem?_eq_none le_rfl]
  rfl

section

variable (h : Indexed crds)
variable {v : VersionedCrdsValue π}

include h

theorem label_of_valueAt {key : CrdsValueLabel}
    (hfull : crds.table.getFull key = some (i, v)) : v.value.label = key :=
  h.labels (key, v) (List.mem_of_getElem? (getFull_eq_some.mp hfull))

theorem labels_insert (v : VersionedCrdsValue π) :
    ∀ entry ∈ (crds.table.insert v.value.label v).entries, entry.2.value.label = entry.1 := by
  intro entry hentry
  rcases mem_entries_insert.mp hentry with rfl | ⟨hentry, -⟩
  · rfl
  · exact h.labels entry hentry

/-- A new label: the value goes to the end of the table. -/
theorem insert_vacant (hnone : crds.table.getFull v.value.label = none) :
    Returns (crds.insertVersioned v) (fun r => Indexed r.1) fun _ => False := by
  have hvacant := getFull_eq_none.mp hnone
  have hvalue := valueAt_insert_of_none hvacant v
  have hend := valueAt_len crds
  unfold Crds.insertVersioned
  dsimp only
  rw [hnone]
  refine (insert_returns h.shardBits_le (h.lookup_eq_none hend)).bind fun shards hshards => ?_
  rw [h.shardBits] at hshards
  refine ⟨⟨hshards.1, h.shards.update hvalue hshards.2, h.nodes.update hvalue ?_,
    h.records.update hvalue ?_, ?_⟩,
    h.labels_insert v⟩
  · intro _ j
    have hfree := h.notMem_nodes hend
    by_cases hj : j = crds.table.len
    · rw [hj]
      cases v.value.data.isContactInfo with
      | true => simp [mem_add]
      | false => simpa using hfree
    · split
      · simp [mem_add, hj]
      · rfl
  · intro pubkey j
    have hfree := h.not_inRecords hend pubkey
    rw [inRecords_insert, mem_add]
    by_cases hkey : pubkey = v.value.pubkey
    · rw [hkey]
      by_cases hj : j = crds.table.len
      · simp [hj]
      · simp only [hj, InRecords]
        cases crds.records[v.value.pubkey]? with
        | none => simp [keys]
        | some => simp
    · rw [if_neg hkey]
      by_cases hj : j = crds.table.len
      · rw [if_pos hj, hj]
        exact ⟨fun hmem => absurd hmem hfree, fun heq => absurd heq.symm hkey⟩
      · rw [if_neg hj]
  · intro pubkey set hset
    rw [getElem?_insert_ite] at hset
    split at hset
    · cases hset
      exact List.ne_nil_of_mem (mem_add.mpr (.inl rfl))
    · exact h.nonempty pubkey set hset

/-- A known label: owner and kind are those of the label, so only the shards change. -/
theorem insert_occupied {current : VersionedCrdsValue π}
    (hfull : crds.table.getFull v.value.label = some (i, current)) :
    Returns (crds.insertVersioned v) (fun r => Indexed r.1) fun _ => False := by
  have hentry := getFull_eq_some.mp hfull
  have hi : crds.table.getIndexOf v.value.label = some i := getIndexOf_eq_some.mpr ⟨current, hentry⟩
  have hat : crds.table.valueAt i = some current := by rw [valueAt, hentry]; rfl
  have hvalue := valueAt_insert_of_some hi v
  have hlabel := h.label_of_valueAt hfull
  have hkey : current.value.pubkey = v.value.pubkey := by
    rw [← CrdsValue.pubkey_label, hlabel, CrdsValue.pubkey_label]
  unfold Crds.insertVersioned
  dsimp only
  rw [hfull]
  dsimp only
  split
  · refine (remove_returns h.shardBits_le (h.eq_shardIndex hat)).bind fun shards₁ hshards₁ => ?_
    have hfree : ∀ k, shards₁.lookup k i = none := fun k => by rw [hshards₁.2, if_pos rfl]
    refine (insert_returns (by rw [hshards₁.1]; exact h.shardBits_le) hfree).bind
      fun shards hshards => ?_
    rw [hshards₁.1, h.shardBits] at hshards
    rw [assert_pos hkey, ok_bind]
    refine ⟨⟨hshards.1, h.shards.update hvalue ?_, h.nodes.update hvalue ?_,
      h.records.update hvalue ?_, h.nonempty⟩,
      h.labels_insert v⟩
    · intro tag j
      rw [hshards.2, hshards₁.2]
      by_cases hj : j = i
      · rw [if_pos hj, if_pos hj]
      · rw [if_neg hj, if_neg hj, if_neg hj]
    · intro _ j
      by_cases hj : j = i
      · rw [if_pos hj, hj]
        refine (h.mem_nodes hat).trans ?_
        have hkind : current.value.data.isContactInfo = v.value.data.isContactInfo := by
          rw [← CrdsValue.isContactInfo_label, hlabel, CrdsValue.isContactInfo_label]
        rw [hkind]
      · rw [if_neg hj]
    · intro pubkey j
      by_cases hj : j = i
      · rw [if_pos hj, hj]
        refine (h.inRecords hat).trans ?_
        rw [hkey]
      · rw [if_neg hj]
  · exact h

/-- **Insertion** keeps the indices and does not abort. -/
theorem insertVersioned (v : VersionedCrdsValue π) :
    Returns (crds.insertVersioned v) (fun r => Indexed r.1) fun _ => False := by
  cases hfull : crds.table.getFull v.value.label with
  | none => exact h.insert_vacant hfull
  | some => exact h.insert_occupied hfull

theorem labels_swapRemove (key : CrdsValueLabel) :
    ∀ entry ∈ (crds.table.swapRemove key).entries, entry.2.value.label = entry.1 :=
      fun entry hentry =>
  h.labels entry (mem_entries_swapRemove.mp hentry).1

end

end Indexed

section RemoveRecord

variable {pubkey : Pubkey} {entry : IndexSet C Nat}

theorem keys_eq_nil : s.keys = [] ↔ s.len = 0 := by
  unfold keys len
  rw [List.map_eq_nil_iff, List.length_eq_zero_iff]

theorem inRecords_removeRecord (h : records[pubkey]? = some entry) :
    InRecords (removeRecord records pubkey (entry.remove i)) key j
      ↔ InRecords records key j ∧ ¬ (key = pubkey ∧ j = i) := by
  unfold removeRecord
  by_cases hempty : (entry.remove i).len = 0
  · rw [if_pos hempty, inRecords_erase]
    by_cases hkey : key = pubkey
    · -- the set was the position alone
      subst hkey
      have hnot : j ∉ (entry.remove i).keys := by
        rw [keys_eq_nil.mpr hempty]
        exact List.not_mem_nil
      rw [mem_remove, not_and_or, not_not] at hnot
      rw [inRecords_iff_mem h]
      constructor
      · exact fun h => absurd rfl h.1
      · rintro ⟨hmem, hne⟩
        rcases hnot with hj | hj
        · exact absurd ⟨rfl, hj⟩ hne
        · exact absurd hmem hj
    · simp [hkey]
  · rw [if_neg hempty, inRecords_insert]
    by_cases hkey : key = pubkey
    · subst hkey
      rw [mem_remove, inRecords_iff_mem h]
      simp [and_comm]
    · simp [hkey]

theorem removeRecord_nonempty
    (hrecords : ∀ (key : Pubkey) (set : IndexSet C Nat), records[key]? = some set → set.keys ≠ [])
    (key : Pubkey) (set : IndexSet C Nat)
    (h : (removeRecord records pubkey entry)[key]? = some set) : set.keys ≠ [] := by
  unfold removeRecord at h
  split at h
  · exact hrecords key set (getElem?_of_erase h)
  · rw [getElem?_insert_ite] at h
    split at h
    · cases h
      rwa [ne_eq, keys_eq_nil]
    · exact hrecords key set h

end RemoveRecord

theorem index_values {κ α : Type} {m : IndexMap C κ α} {a : α} (h : m.valueAt i = some a) :
    index m.values i = .ok a := by
  unfold index values
  rw [List.getElem?_map]
  unfold valueAt at h
  rw [h]

/-- Taking out an element that is there exactly under a condition, under this condition. -/
theorem mem_removeIf {c : Bool} (h : i ∈ s.keys ↔ c = true) :
    j ∈ (if c then s.remove i else s).keys ↔ j ≠ i ∧ j ∈ s.keys := by
  cases c with
  | true => exact mem_remove
  | false =>
    refine ⟨fun hmem => ⟨?_, hmem⟩, And.right⟩
    rintro rfl
    cases h.mp hmem

/-- The removed value's position leaves every index. -/
theorem IndexedBy.eraseIndices {π : Type} {at₁ at₂ : Nat → Option (VersionedCrdsValue π)}
    {crds : Crds C π}
    (h : IndexedBy at₁ crds) {i : Nat} {value : VersionedCrdsValue π} (hat : at₁ i = some value)
    (hat₂ : ∀ j, at₂ j = if j = i then none else at₁ j) :
    Returns (crds.eraseIndices i value)
      (fun crds' => crds'.table = crds.table ∧ IndexedBy at₂ crds') fun _ => False := by
  obtain ⟨entry, hentry, -⟩ := (h.inRecords hat).mpr rfl
  refine (remove_returns h.shardBits_le (h.eq_shardIndex hat)).bind fun shards hshards => ?_
  dsimp only
  rw [hentry]
  refine ⟨rfl, hshards.1.trans h.shardBits, h.shards.erase hat₂ ?_,
    h.nodes.erase hat₂ ?_, h.records.erase hat₂ ?_,
    removeRecord_nonempty h.nonempty⟩
  · split <;> simp [*]
  · intro _ j
    exact mem_removeIf (h.mem_nodes hat)
  · intro pubkey j
    rw [inRecords_removeRecord hentry, and_comm]
    refine and_congr_left fun hmem => ⟨fun hne hj => hne ⟨?_, hj⟩, fun hne heq => hne heq.2⟩
    rw [hj] at hmem
    exact ((h.inRecords hat).mp hmem).symm

/-- The moved value's position changes in every index. -/
theorem IndexedBy.moveIndices {π : Type} {at₁ at₂ : Nat → Option (VersionedCrdsValue π)}
    {crds : Crds C π}
    (h : IndexedBy at₁ crds) {size i : Nat} {value : VersionedCrdsValue π} (hne : size ≠ i)
    (hat : at₁ size = some value)
    (hfree : at₁ i = none)
    (hat₂ : ∀ j, at₂ j = if j = size then none else if j = i then some value else at₁ j) :
    Returns (crds.moveIndices size i value)
      (fun crds' => crds'.table = crds.table ∧ IndexedBy at₂ crds') fun _ => False := by
  obtain ⟨entry, hentry, hsize⟩ := (h.inRecords hat).mpr rfl
  refine (remove_returns h.shardBits_le (h.eq_shardIndex hat)).bind fun shards₁ hshards₁ => ?_
  have hfree₁ : ∀ k, shards₁.lookup k i = none := fun k => by
    rw [hshards₁.2, if_neg hne.symm, h.lookup_eq_none hfree]
  have hbits : shards₁.shardBits ≤ 64 := by
    rw [hshards₁.1]
    exact h.shardBits_le
  refine (insert_returns hbits hfree₁).bind fun shards hshards => ?_
  rw [hshards₁.1, h.shardBits] at hshards
  dsimp only
  rw [hentry]
  refine ⟨rfl, hshards.1, h.shards.swapRemove hat₂ ?_, h.nodes.swapRemove hat₂ ?_,
    h.records.swapRemove hat₂ ?_, ?_⟩
  · intro tag j
    rw [hshards.2, hshards₁.2]
    by_cases hj : j = size
    · rw [if_pos hj, if_pos hj, if_neg (hj ▸ hne)]
      simp
    · rw [if_neg hj, if_neg hj]
  · intro _ j
    have hmem := h.mem_nodes hat
    have hnot := h.notMem_nodes hfree
    split
    · simp only [mem_add, mem_remove]
      by_cases hj : j = size
      · simp [hj, hne]
      · by_cases hi : j = i
        · simp [hne.symm, *]
        · simp [hi]
    · rename_i hcontact
      by_cases hj : j = size
      · rw [hj, hmem]
        simp [hcontact]
      · rw [if_neg hj]
        by_cases hi : j = i
        · rw [hi]
          simp [hcontact, hnot]
        · rw [if_neg hi]
  · intro pubkey j
    have hmem : InRecords crds.records pubkey size ↔ value.value.pubkey = pubkey := h.inRecords hat
    have hnot := h.not_inRecords hfree pubkey
    rw [inRecords_insert, mem_add, mem_remove]
    by_cases hkey : pubkey = value.value.pubkey
    · rw [hkey]
      by_cases hj : j = size
      · simp [hj, hne]
      · by_cases hi : j = i
        · simp [hi, hne.symm]
        · simp [hi, inRecords_iff_mem hentry]
    · rw [if_neg hkey]
      by_cases hj : j = size
      · rw [hj, hmem]
        simp [Ne.symm hkey]
      · rw [if_neg hj]
        by_cases hi : j = i
        · rw [hi]
          simp [hnot, Ne.symm hkey]
        · rw [if_neg hi]
  · intro pubkey set hset
    rw [getElem?_insert_ite] at hset
    split at hset
    · cases hset
      exact List.ne_nil_of_mem (mem_add.mpr (.inl rfl))
    · exact h.nonempty pubkey set hset

namespace Indexed

variable {π : Type} {crds : Crds C π}

/-- **Removal** keeps the indices and does not abort: both positions, of the removed and of the
moved value, change in every index. -/
theorem remove (h : Indexed crds) (key : CrdsValueLabel) :
    Returns (crds.remove key) (fun r => Indexed r.1) fun _ => False := by
  unfold Crds.remove
  cases hfull : crds.table.getFull key with
  | none => exact h
  | some full =>
    obtain ⟨i, value⟩ := full
    have hentry := getFull_eq_some.mp hfull
    have hi : crds.table.getIndexOf key = some i := getIndexOf_eq_some.mpr ⟨value, hentry⟩
    have hat : crds.table.valueAt i = some value := by rw [valueAt, hentry]; rfl
    have hlt : i < crds.table.len := lt_len_of_valueAt hat
    have hvalue := valueAt_swapRemove hi
    have hsize := len_swapRemove hi
    obtain ⟨moved, hmoved⟩ := exists_valueAt (by omega : crds.table.len - 1 < crds.table.len)
    rw [hmoved] at hvalue
    generalize hlast : crds.table.len - 1 = last at hvalue hsize hmoved
    have herase : IndexedBy crds.table.valueAt { crds with table := crds.table.swapRemove key } :=
      { h with }
    refine (herase.eraseIndices hat fun _ => rfl).bind fun crds₁ hcrds₁ => ?_
    obtain ⟨htable, hcrds₁⟩ := hcrds₁
    rw [htable, hsize]
    by_cases hhole : i < last
    · rw [if_pos hhole]
      have hne : last ≠ i := by omega
      have hatHole : (crds.table.swapRemove key).valueAt i = some moved := by
        rw [hvalue, if_neg (by omega), if_pos rfl]
      rw [index_values hatHole]
      have hstep : ∀ j, (crds.table.swapRemove key).valueAt j
          = if j = last then none else if j = i then some moved else if j = i then none
            else crds.table.valueAt j := by
        intro j
        rw [hvalue]
        by_cases hj : j = i <;> simp [hj]
      have hlastAt : (if last = i then none else crds.table.valueAt last) =
          some moved := by rw [if_neg hne, hmoved]
      refine (hcrds₁.moveIndices hne hlastAt (if_pos rfl) hstep).bind fun crds₂ hcrds₂ => ?_
      obtain ⟨htable₂, hcrds₂⟩ := hcrds₂
      refine ⟨?_, ?_⟩
      · rw [htable₂, htable]
        exact hcrds₂
      · rw [htable₂, htable]
        exact h.labels_swapRemove key
    · rw [if_neg hhole]
      have heq : i = last := by omega
      subst heq
      have hsame : (crds.table.swapRemove key).valueAt = fun j => if j = i then none
          else crds.table.valueAt j := by
        funext j
        rw [hvalue]
        split <;> rfl
      refine ⟨?_, ?_⟩
      · rw [htable, hsame]
        exact hcrds₁
      · rw [htable]
        exact h.labels_swapRemove key

/-- What the indices see of a value: all but its local times. -/
def seen (v : VersionedCrdsValue π) : CrdsValue π × Hash := (v.value, v.valueHash)

/-- A table that differs in local times only has the same indices. -/
theorem of_seen (h : Indexed crds) {table : IndexMap C CrdsValueLabel (VersionedCrdsValue π)}
    (hseen : ∀ j, (table.valueAt j).map seen = (crds.table.valueAt j).map seen)
    (hlabels : ∀ entry ∈ table.entries, entry.2.value.label = entry.1) : Indexed { crds with
      table := table } := by
  refine ⟨⟨h.shardBits, h.shards.congr seen hseen ?_, h.nodes.congr seen hseen ?_,
    h.records.congr seen hseen ?_,
    h.nonempty⟩, hlabels⟩
  · intro a b tag heq
    simp only [seen, Prod.mk.injEq] at heq
    rw [CrdsShards.Tag, CrdsShards.Tag, heq.2]
  · intro a b _ heq
    simp only [seen, Prod.mk.injEq] at heq
    rw [heq.1]
  · intro a b pubkey heq
    simp only [seen, Prod.mk.injEq] at heq
    rw [heq.1]

theorem seen_touch (now : Nat) (v : VersionedCrdsValue π) : seen (Crds.touch now v) = seen v := by
  unfold Crds.touch
  split <;> rfl

/-- **New timestamps** keep the indices, and every recorded position is in the table. -/
theorem updateRecordTimestamp (h : Indexed crds) (pubkey : Pubkey) (now : Nat) :
    Returns (crds.updateRecordTimestamp pubkey now) Indexed fun _ => False := by
  unfold Crds.updateRecordTimestamp
  cases hrecords : crds.records[pubkey]? with
  | none => exact h
  | some indices =>
    -- the loop changes no more than local times
    have hloop : Returns (indices.keys.foldlM
        (fun (table : IndexMap C CrdsValueLabel (VersionedCrdsValue π)) i => do
          let _ ← index table.entries i
          .ok (table.modifyAt i (Crds.touch now))) crds.table)
        (fun table => (∀ j, (table.valueAt j).map seen = (crds.table.valueAt j).map seen)
          ∧ ∀ entry ∈ table.entries, entry.2.value.label = entry.1) fun _ => False := by
      refine Returns.foldlM_inv ⟨fun _ => rfl, h.labels⟩ fun i hi table ⟨hseen, hlabels⟩ => ?_
      obtain ⟨v, hv, -⟩ := (h.records pubkey i).mp ⟨indices, hrecords, hi⟩
      have hsome := hseen i
      rw [hv] at hsome
      obtain ⟨w, hw, -⟩ := Option.map_eq_some_iff.mp hsome
      rw [index_eq_ok (lt_len_of_valueAt hw)]
      refine ⟨fun j => ?_, fun entry hentry => ?_⟩
      · rw [← hseen j, valueAt_modifyAt]
        split
        · rw [Option.map_map]
          exact congrArg (fun f => Option.map f _) (funext (seen_touch now))
        · rfl
      · obtain ⟨a, ha, hcase⟩ := mem_entries_modifyAt hentry
        have hlabel := hlabels _ ha
        rcases hcase with heq | heq
        · rw [heq, hlabel]
        · have hvalue : (Crds.touch now a).value = a.value := congrArg Prod.fst (seen_touch now a)
          rw [heq, hvalue, hlabel]
    exact hloop.bind fun table ⟨hseen, hlabels⟩ => h.of_seen hseen hlabels

end Indexed

/-! ## Runs -/

inductive CrdsOp (π : Type) where
  | insert (value : CrdsValue π) (localTimestamp : Nat)
  | insertVersioned (value : VersionedCrdsValue π)
  | remove (label : CrdsValueLabel)
  | updateRecordTimestamp (pubkey : Pubkey) (now : Nat)

def CrdsOp.run {π : Type} (hashOf : CrdsValue π → Hash) (crds : Crds C π) : CrdsOp π →
    Except Panic (Crds C π)
  | .insert value localTimestamp => do
    let (crds, _) ← crds.insert hashOf value localTimestamp
    .ok crds
  | .insertVersioned value => do
    let (crds, _) ← crds.insertVersioned value
    .ok crds
  | .remove label => do
    let (crds, _) ← crds.remove label
    .ok crds
  | .updateRecordTimestamp pubkey now => crds.updateRecordTimestamp pubkey now

theorem Indexed.run {π : Type} {crds : Crds C π} (h : Indexed crds) (hashOf : CrdsValue π → Hash)
    (op : CrdsOp π) : Returns (op.run hashOf crds) Indexed fun _ => False := by
  cases op with
  | insert => exact (h.insertVersioned _).bind fun _ h => h
  | insertVersioned value => exact (h.insertVersioned value).bind fun _ h => h
  | remove label => exact (h.remove label).bind fun _ h => h
  | updateRecordTimestamp pubkey now => exact h.updateRecordTimestamp pubkey now

theorem Indexed.foldlM {π : Type} (hashOf : CrdsValue π → Hash) (ops : List (CrdsOp π)) :
    ∃ crds : Crds C π, ops.foldlM (CrdsOp.run hashOf) Crds.default = .ok crds ∧ Indexed crds :=
  (Returns.foldlM_inv Indexed.default fun op _ _ h => h.run hashOf op).exists_ok fun _ h => h

/-- The shards hold every position of the table once, each in the shard of its value's hash and with
that hash; the nodes are the positions of contact infos; the records of an owner are the positions
of its values, and no owner without values has records. -/
structure ExactIndices {π : Type} (crds : Crds C π) : Prop where
  positions : (crds.shards.shards.flatMap keys).Perm (List.range crds.table.len)
  shards : ∀ (k i : Nat) (shard : IndexMap C Nat (BitVec 64)) (hash : BitVec 64),
    crds.shards.shards[k]? = some shard →
    (i, hash) ∈ shard.entries → ∃ v, crds.table.valueAt i = some v ∧ hash = hashAsU64 v.valueHash
      ∧ k = shardIndex CRDS_SHARDS_BITS hash
  nodes : ∀ i, i ∈ crds.nodes.keys ↔ ∃ v, crds.table.valueAt i = some v ∧
    v.value.data.isContactInfo = true
  records : ∀ pubkey i, InRecords crds.records pubkey i ↔ ∃ v, crds.table.valueAt i = some v ∧
    v.value.pubkey = pubkey
  nonempty : ∀ (pubkey : Pubkey) (set : IndexSet C Nat), crds.records[pubkey]? =
    some set → set.keys ≠ []

namespace Indexed

variable {π : Type} {crds : Crds C π}

theorem lookup_of_mem {s : CrdsShards C} {hash : BitVec 64} (hshard : s.shards[k]? = some shard)
    (hmem : (i, hash) ∈ shard.entries) : s.lookup k i = some hash := by
  rw [← shard_lookup hshard]
  exact get?_eq_some.mpr hmem

section

variable (h : Indexed crds)
include h

theorem eq_of_mem_shards {k' : Nat} {shard' : IndexMap C Nat (BitVec 64)}
    (hshard : crds.shards.shards[k]? = some shard) (hmem : i ∈ shard.keys)
    (hshard' : crds.shards.shards[k']? = some shard') (hmem' : i ∈ shard'.keys) : k = k' := by
  obtain ⟨⟨_, hash⟩, hentry, rfl⟩ := List.mem_map.mp hmem
  obtain ⟨⟨_, hash'⟩, hentry', heq⟩ := List.mem_map.mp hmem'
  subst heq
  obtain ⟨v, hv, -⟩ := (h.shards (k, hash) _).mp (lookup_of_mem hshard hentry)
  rw [h.eq_shardIndex hv k hash (lookup_of_mem hshard hentry),
    h.eq_shardIndex hv k' hash' (lookup_of_mem hshard' hentry')]

theorem mem_shards : i ∈ crds.shards.shards.flatMap keys ↔ i < crds.table.len := by
  rw [List.mem_flatMap]
  constructor
  · rintro ⟨shard, hshard, hmem⟩
    obtain ⟨k, hk⟩ := List.mem_iff_getElem?.mp hshard
    obtain ⟨⟨_, hash⟩, hentry, rfl⟩ := List.mem_map.mp hmem
    obtain ⟨v, hv, -⟩ := (h.shards (k, hash) _).mp (lookup_of_mem hk hentry)
    exact lt_len_of_valueAt hv
  · intro hi
    obtain ⟨v, hv⟩ := exists_valueAt hi
    have hlookup :=
      (h.shards (shardIndex CRDS_SHARDS_BITS (hashAsU64 v.valueHash), hashAsU64 v.valueHash)
      i).mpr ⟨v, hv, rfl, rfl⟩
    obtain ⟨shard, hshard, hget⟩ := Option.bind_eq_some_iff.mp hlookup
    exact ⟨shard, List.mem_of_getElem? hshard, List.mem_map_of_mem (get?_eq_some.mp hget)⟩

theorem nodup_shards : (crds.shards.shards.flatMap keys).Nodup := by
  rw [List.nodup_flatMap]
  refine ⟨fun shard _ => shard.nodup, ?_⟩
  rw [List.pairwise_iff_getElem]
  intro k k' hk hk' hlt i hmem hmem'
  have := h.eq_of_mem_shards (List.getElem?_eq_getElem hk) hmem (List.getElem?_eq_getElem hk') hmem'
  omega

theorem exactIndices : ExactIndices crds := by
  refine ⟨?_, fun k i shard hash hshard hmem => ?_, h.nodes (), h.records, h.nonempty⟩
  · refine (List.perm_ext_iff_of_nodup h.nodup_shards List.nodup_range).mpr fun i => ?_
    rw [h.mem_shards, List.mem_range]
  · obtain ⟨v, hv, hk, hhash⟩ := (h.shards (k, hash) i).mp (lookup_of_mem hshard hmem)
    exact ⟨v, hv, hhash, hk⟩

end

end Indexed

/-- **The indices stay exact**: any calls on an empty table return, and after each of them every
index says exactly what stands at the positions of the table. -/
theorem crds_indices_exact (C : IndexMapCrate) {π : Type} (hashOf : CrdsValue π → Hash)
    (ops : List (CrdsOp π)) :
    ∃ crds : Crds C π, ops.foldlM (CrdsOp.run hashOf) Crds.default = .ok crds ∧
      ExactIndices crds := by
  obtain ⟨crds, hrun, h⟩ := Indexed.foldlM hashOf ops
  exact ⟨crds, hrun, h.exactIndices⟩

def contact (pubkey : Pubkey) : CrdsValue Unit := ⟨0, .contactInfo ⟨pubkey, 0, ()⟩⟩

/-- On lists of entries, where the removal moves the second contact into the hole. -/
theorem crds_indices_exact_entryLists :
    ∃ crds : Crds entryLists Unit,
      [CrdsOp.insert (contact 1) 0, .insert (contact 2) 0, .remove (contact 1).label].foldlM
        (CrdsOp.run fun _ => 0) Crds.default = .ok crds ∧ ExactIndices crds :=
  crds_indices_exact entryLists _ _

end Panoptes.Gossip
