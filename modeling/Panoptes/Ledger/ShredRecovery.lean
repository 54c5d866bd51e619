import Panoptes.Ledger.Shredder

/-!
# Shredding is lossless

The shreds of `entries_to_shreds` come in sets that are erasure coded together.  From enough shreds
of a set `try_recovery` returns the data shreds that are missing, and all the data shreds together
give the serialized entries back.

* `ReedSolomon.Reconstructs` — what is assumed of the erasure coder.
* `FecSet` — the data and coding shreds of a set; the recovery of a set follows the positions in it.
* `EntryCodec` — what is assumed of the serializer of entries.

Principal results: `FecSet.tryRecovery_eq`, `entriesToShreds_lossless`.
-/

set_option autoImplicit false

namespace Panoptes.Ledger

open Lib Sdk List Shred

/-- The coder accepts these numbers of blocks, encodes blocks of one size, and restores the data
blocks from any blocks of which at most `numCoding` are missing. -/
structure ReedSolomon.Reconstructs (rs : ReedSolomon) (numData numCoding : Nat) : Prop where
  new_ok : rs.new numData numCoding = .ok ()
  encode_ok : ∀ (data parity : List (List UInt8)) size, 0 < size → data.length = numData →
    parity.length = numCoding → (∀ b ∈ data ++ parity, b.length = size) →
      ∃ parity', rs.encodeSep numData numCoding data parity = .ok parity'
  reconstruct_ok : ∀ (data parity parity' : List (List UInt8)) size, data.length = numData →
    parity.length = numCoding → (∀ b ∈ data ++ parity, b.length = size) →
    rs.encodeSep numData numCoding data parity = .ok parity' →
    ∀ blocks : List (List UInt8 × Bool), blocks.length = numData + numCoding →
      (∀ b ∈ blocks, b.1.length = size) →
      (∀ (i : Nat) b, blocks[i]? = some (b, true) → (data ++ parity')[i]? = some b) →
      (blocks.filter fun b => !b.2).length ≤ numCoding →
      ∃ blocks', rs.reconstructData numData numCoding blocks = .ok blocks' ∧
        blocks'.take numData = data

namespace Shredder

/-! ## One erasure set -/

variable {set shreds data batch : List Shred} {s : Shred} {i first numCoding total m : Nat}
  {rs : ReedSolomon} {signMessage : List UInt8 → Signature} {bytes block : List UInt8}
  {sh : Shredder} {isLastInSlot : Bool} {next : UInt32} {version : UInt16} {fecRate : FecRate}
  {α : Type}

/-- The data and coding shreds of a set whose first index is `first`. -/
structure FecSet (rs : ReedSolomon) (slot first : Nat) (data coding : List Shred) : Prop where
  encoded : ∃ blank, (∀ b ∈ blank, b.length = validDataLen) ∧ blank.length = coding.length ∧
    rs.encodeSep data.length coding.length (data.map fun s => s.payload.take validDataLen) blank =
      .ok (coding.map fun s => s.payload.drop codingBlockOffset)
  isData : ∀ s ∈ data, s.IsDataShred ∧ s.slot = slot
  data_index : ∀ (i : Nat) s, data[i]? = some s → s.index = first + i
  data_tail : ∀ s ∈ data, s.payload.drop validDataLen =
    replicate (SHRED_PAYLOAD_SIZE - validDataLen) 0
  isCoding : ∀ s ∈ coding, s.isData = false ∧ s.payload.length = SHRED_PAYLOAD_SIZE
  coding_index : ∀ (i : Nat) s, coding[i]? = some s → s.index = first + i
  data_pos : 0 < data.length
  coding_pos : 0 < coding.length
  fits : first + data.length + coding.length < U64

def shredAt (set : List Shred) (i : Nat) : Shred := (set[i]?).getD newEmptyDataShred

theorem shredAt_eq (h : set[i]? = some s) : shredAt set i = s := by
  rw [shredAt, h, Option.getD_some]

theorem getElem?_shredAt (h : i < set.length) : set[i]? = some (shredAt set i) := by
  rw [shredAt, getElem?_eq_getElem h, Option.getD_some]

theorem map_shredAt_range (set : List Shred) : (range set.length).map (shredAt set) = set := by
  refine ext_getElem (by simp) fun i h₁ h₂ => ?_
  rw [getElem_map, getElem_range, shredAt_eq (getElem?_eq_getElem h₂)]

/-- Shreds of a set in their order are those at increasing positions. -/
theorem exists_positions (h : shreds.Sublist set) :
    ∃ kept : List Nat, kept.Pairwise (· < ·) ∧ (∀ i ∈ kept, i < set.length) ∧
      shreds = kept.map (shredAt set) := by
  rw [← map_shredAt_range set, sublist_map_iff] at h
  obtain ⟨kept, hsub, rfl⟩ := h
  exact ⟨kept, List.Pairwise.sublist hsub pairwise_lt_range,
    fun i hi => mem_range.mp (hsub.subset hi), rfl⟩

theorem range_append_range' {q p : Nat} (h : q ≤ p) : range q ++ range' q (p - q) = range p := by
  have happend := range'_append_1 (s := 0) (m := q) (n := p - q)
  rw [Nat.zero_add, Nat.add_sub_cancel' h] at happend
  rw [range_eq_range', range_eq_range', happend]

theorem verifyConsistentShredPayloadSizes_ok (hpos : 0 < shreds.length)
    (hall : ∀ s ∈ shreds, s.payload.length = SHRED_PAYLOAD_SIZE) :
    verifyConsistentShredPayloadSizes shreds = .ok () := by
  have hne : shreds.isEmpty = false := isEmpty_eq_false_iff.mpr (length_pos_iff.mp hpos)
  rw [verifyConsistentShredPayloadSizes, hne, if_neg Bool.false_ne_true, if_pos]
  exact all_eq_true.mpr fun s hs => beq_iff_eq.mpr (hall s hs)

section Set

variable {slot : Nat} {coding : List Shred} {kept : List Nat}

section

variable (h : FecSet rs slot first data coding) (hi : i < (data ++ coding).length)
include h hi

theorem FecSet.getShredIndex_shredAt :
    getShredIndex (shredAt (data ++ coding) i) data.length first first = first + i := by
  have hget := getElem?_shredAt hi
  have hfits := h.fits
  rw [length_append] at hi
  by_cases hd : i < data.length
  · rw [getElem?_append_left hd] at hget
    have hs := (h.isData _ (mem_of_getElem? hget)).1
    have hdata : (shredAt (data ++ coding) i).isData = true := beq_iff_eq.mpr hs.shredType
    rw [getShredIndex, if_pos hdata, h.data_index i _ hget]
  · rw [getElem?_append_right (Nat.not_lt.mp hd)] at hget
    have hs := (h.isCoding _ (mem_of_getElem? hget)).1
    rw [getShredIndex, if_neg (by rw [hs]; decide), h.coding_index _ _ hget]
    unfold wrapSub
    unfold U64 at hfits ⊢
    omega

theorem FecSet.shredAt_inj {j : Nat}
    (hj : j < (data ++ coding).length)
    (heq : shredAt (data ++ coding) i = shredAt (data ++ coding) j) : i = j := by
  have hindex := h.getShredIndex_shredAt hi
  rw [heq, h.getShredIndex_shredAt hj] at hindex
  omega

end

/-! ### Buffers for the missing shreds -/

section

variable (set : List Shred) (numData first : Nat) (kept : List Nat)

/-- The buffer at a position: that of the shred, or one that stands for it. -/
def bufAt (i : Nat) : List UInt8 :=
  if i ∈ kept then (shredAt set i).payload else missingBlock numData first (first + i)

/-- What the loop has built when it reached position `q`. -/
def placedUpTo (q : Nat) : Placed :=
  { shredBufs := (range q).map (bufAt set numData first kept)
    present := (range set.length).map fun i => decide (q ≤ i ∨ i ∈ kept)
    nextExpectedIndex := first + q }

end

theorem getElem?_clearMissing (first q n : Nat) (present : List Bool) (i : Nat) :
    (clearMissing first (range' (first + q) n) present)[i]? =
      if q ≤ i ∧ i < q + n then (present[i]?).map fun _ => false else present[i]? := by
  induction n generalizing q present with
  | zero =>
    rw [if_neg (by omega)]
    rfl
  | succ n ih =>
    have hcons : clearMissing first (range' (first + q) (n + 1)) present =
        clearMissing first (range' (first + (q + 1)) n) (present.set q false) := by
      rw [range'_succ, clearMissing, foldl_cons, Nat.add_sub_cancel_left]
      rfl
    rw [hcons, ih, getElem?_set]
    by_cases hiq : q = i
    · subst hiq
      have hin : q ≤ q ∧ q < q + (n + 1) := by omega
      rw [if_neg (by omega), if_pos rfl, if_pos hin]
      by_cases hlen : q < present.length
      · rw [if_pos hlen, getElem?_eq_getElem hlen]
        rfl
      · rw [if_neg hlen, getElem?_eq_none (Nat.not_lt.mp hlen)]
        rfl
    · rw [if_neg hiq]
      by_cases hin : q + 1 ≤ i ∧ i < q + 1 + n
      · rw [if_pos hin, if_pos (by omega)]
      · rw [if_neg hin, if_neg (by omega)]

/-- The positions between two shreds are filled, and their flags cleared. -/
theorem fillInMissingShreds_between (set : List Shred) {numData : Nat} (first : Nat) {q p : Nat}
    (hlen : set.length = numData + numCoding) (hqp : q ≤ p) (hp : p ≤ set.length)
    (hmissing : ∀ i, q ≤ i → i < p → i ∉ kept) :
    fillInMissingShreds numData numCoding first (first + q) (first + p)
        (placedUpTo set numData first kept q).present =
      .ok ((range' q (p - q)).map (bufAt set numData first kept),
        (placedUpTo set numData first kept p).present) := by
  have hblocks : (range' (first + q) (p - q)).map (missingBlock numData first) =
      (range' q (p - q)).map (bufAt set numData first kept) := by
    rw [range'_eq_map_range, range'_eq_map_range, map_map, map_map]
    refine map_congr_left fun j hj => ?_
    rw [mem_range] at hj
    have hnot := hmissing (q + j) (by omega) (by omega)
    simp [bufAt, hnot, Nat.add_assoc]
  have hflags :
      clearMissing first (range' (first + q) (p - q))
        (placedUpTo set numData first kept q).present =
      (placedUpTo set numData first kept p).present := by
    refine ext_getElem? fun i => ?_
    rw [getElem?_clearMissing]
    unfold placedUpTo
    rw [getElem?_map, getElem?_map]
    by_cases hi : i < set.length
    · rw [getElem?_range hi]
      by_cases hin : q ≤ i ∧ i < q + (p - q)
      · rw [if_pos hin]
        have hnot := hmissing i hin.1 (by omega)
        have hlt : ¬ p ≤ i := by omega
        simp [hnot, hlt]
      · rw [if_neg hin]
        have hiff : (q ≤ i ∨ i ∈ kept) ↔ (p ≤ i ∨ i ∈ kept) := by
          constructor <;> rintro (h | h)
          · exact .inl (by omega)
          · exact .inr h
          · exact .inl (by omega)
          · exact .inr h
        simp only [Option.map_some, decide_eq_decide.mpr hiff]
    · rw [getElem?_eq_none (by simpa using hi)]
      simp
  by_cases hrange : first ≤ first + p - 1 ∧ first + p - 1 < first + numData + numCoding
  · rw [fillInMissingShreds_eq (by simp [placedUpTo, hlen]) hrange, Nat.add_sub_add_left,
      hblocks, hflags]
  · have hpq : p - q = 0 := by omega
    unfold fillInMissingShreds
    rw [if_neg hrange]
    rw [hpq] at hflags ⊢
    exact congrArg (fun f => Except.ok ([], f)) hflags

/-- The loop of `try_recovery` over shreds at increasing positions. -/
theorem FecSet.foldlM_place (h : FecSet rs slot first data coding) (rest : List Nat) (q : Nat)
    (hrest : rest.Pairwise (· < ·)) (hbounds : ∀ i ∈ rest, q ≤ i ∧ i < (data ++ coding).length)
    (hkept : ∀ i, q ≤ i → (i ∈ kept ↔ i ∈ rest)) (hq : q ≤ (data ++ coding).length) :
    ∃ q' ≤ (data ++ coding).length, (∀ i, q' ≤ i → i ∉ kept) ∧
      (rest.map (shredAt (data ++ coding))).foldlM (place data.length coding.length first first)
          (placedUpTo (data ++ coding) data.length first kept q) =
        .ok (placedUpTo (data ++ coding) data.length first kept q') := by
  induction rest generalizing q with
  | nil => exact ⟨q, hq, fun i hi hmem => absurd ((hkept i hi).mp hmem) not_mem_nil, rfl⟩
  | cons p rest ih =>
    obtain ⟨hbefore, hrest'⟩ := pairwise_cons.mp hrest
    obtain ⟨hqp, hp⟩ := hbounds p mem_cons_self
    have hmissing : ∀ i, q ≤ i → i < p → i ∉ kept := by
      intro i hqi hip hmem
      rcases mem_cons.mp ((hkept i hqi).mp hmem) with rfl | hmem
      · exact Nat.lt_irrefl _ hip
      · exact absurd (hbefore i hmem) (by omega)
    have hpkept : p ∈ kept := (hkept p hqp).mpr mem_cons_self
    have hstep :
        place data.length coding.length first first
          (placedUpTo (data ++ coding) data.length first kept q)
        (shredAt (data ++ coding) p) =
          .ok (placedUpTo (data ++ coding) data.length first kept (p + 1)) := by
      have hfill :=
        fillInMissingShreds_between (data ++ coding) first length_append hqp hp.le hmissing
      have hbufs : (placedUpTo (data ++ coding) data.length first kept q).shredBufs ++
          (range' q (p - q)).map (bufAt (data ++ coding) data.length first kept) ++
          [(shredAt (data ++ coding) p).payload] =
          (range (p + 1)).map (bufAt (data ++ coding) data.length first kept) := by
        rw [range_succ, ← range_append_range' hqp]
        simp [bufAt, hpkept, placedUpTo]
      have hflags : (placedUpTo (data ++ coding) data.length first kept p).present =
          (placedUpTo (data ++ coding) data.length first kept (p + 1)).present := by
        refine map_congr_left fun i _ => decide_eq_decide.mpr ?_
        constructor
        · rintro (hle | hmem)
          · rcases Nat.eq_or_lt_of_le hle with rfl | hlt
            · exact .inr hpkept
            · exact .inl hlt
          · exact .inr hmem
        · rintro (hle | hmem)
          · exact .inl (by omega)
          · exact .inr hmem
      have hfits := h.fits
      rw [length_append] at hp
      unfold place
      rw [h.getShredIndex_shredAt (by rw [length_append]; exact hp)]
      change (fillInMissingShreds _ _ _ (first + q) _ _ >>= _) = _
      rw [hfill, wrapAdd_eq (by omega)]
      exact congrArg Except.ok (by rw [hbufs, hflags]; rfl)
    have hbounds' : ∀ i ∈ rest, p + 1 ≤ i ∧ i < (data ++ coding).length := fun i hi =>
      ⟨hbefore i hi, (hbounds i (mem_cons_of_mem p hi)).2⟩
    have hkept' : ∀ i, p + 1 ≤ i → (i ∈ kept ↔ i ∈ rest) := by
      intro i hi
      rw [hkept i (by omega), mem_cons]
      exact or_iff_right (by omega)
    obtain ⟨q', hq', hnone, hfold⟩ := ih (p + 1) hrest' hbounds' hkept' hp
    refine ⟨q', hq', hnone, ?_⟩
    rw [map_cons, foldlM_cons, hstep]
    exact hfold

/-! ### Draining the recovered buffers -/

section Drain

variable (numData firstIndex slot : Nat) (buf : Nat → List UInt8) (flag : Nat → Bool)
  (shred : Nat → Shred)

def drained (i : Nat) : Bool := !flag i && decide (i < numData)

/-- The loop when it reached position `i` of `i + n`. -/
def drainedUpTo (i n : Nat) : Drained :=
  { shredBufs := ((range i).filter fun j => !drained numData flag j).map buf ++ (range' i n).map buf
    numDrained := ((range i).filter (drained numData flag)).length
    recoveredData := ((range i).filter (drained numData flag)).map shred }

theorem length_filter_drained (i : Nat) :
    ((range i).filter fun j => !drained numData flag j).length +
      ((range i).filter (drained numData flag)).length = i := by
  have h := length_eq_length_filter_add (l := range i) (drained numData flag)
  rw [length_range] at h
  omega

variable {numData firstIndex slot buf flag shred}

/-- Removed buffers shift the positions of the later ones, and `num_drained` makes up for it. -/
theorem drainAll_eq (hrecovered : ∀ i < total, drained numData flag i →
      recoveredShred numData firstIndex slot (buf i) = .ok (some (shred i))) (n i : Nat)
    (htotal : i + n = total) :
    drainAll numData firstIndex slot (drainedUpTo numData buf flag shred i n) i
      ((range' i n).map flag) = .ok (drainedUpTo numData buf flag shred total 0) := by
  induction n generalizing i with
  | zero =>
    rw [Nat.add_zero] at htotal
    rw [htotal]
    rfl
  | succ n ih =>
    have hlen := length_filter_drained numData flag i
    have hstep :
        drain numData firstIndex slot (drainedUpTo numData buf flag shred i (n + 1)) i (flag i) =
        .ok (drainedUpTo numData buf flag shred (i + 1) n) := by
      have hflag : (!flag i && decide (i < numData)) = drained numData flag i := rfl
      unfold drain
      rw [hflag]
      by_cases hdrained : drained numData flag i
      · have hposition : i - (drainedUpTo numData buf flag shred i (n + 1)).numDrained =
            (((range i).filter fun j => !drained numData flag j).map buf).length := by
          rw [length_map]
          change i - ((range i).filter (drained numData flag)).length = _
          omega
        have hget : (drainedUpTo numData buf flag shred i (n + 1)).shredBufs[i -
            (drainedUpTo numData buf flag shred i (n + 1)).numDrained]? = some (buf i) := by
          rw [hposition]
          unfold drainedUpTo
          rw [getElem?_append_right (Nat.le_refl _), Nat.sub_self]
          rfl
        obtain ⟨hin, hbuf⟩ := List.getElem?_eq_some_iff.mp hget
        rw [index_eq_ok hin, ok_bind, hbuf, hrecovered i (by omega) hdrained]
        rw [hposition]
        unfold drainedUpTo
        simp only [range_succ, filter_append, filter_singleton, hdrained]
        rw [eraseIdx_append_of_length_le (Nat.le_refl _), range'_succ]
        simp
      · unfold drainedUpTo
        simp only [range_succ, filter_append, filter_singleton, hdrained, range'_succ]
        simp
    rw [range'_succ, map_cons, drainAll, hstep]
    exact ih (i + 1) (by omega)

end Drain

/-! ### The whole recovery -/

section

variable (h : FecSet rs slot first data coding)
include h

theorem FecSet.length_payload (hi : i < (data ++ coding).length) :
    (shredAt (data ++ coding) i).payload.length = SHRED_PAYLOAD_SIZE := by
  have hmem := mem_of_getElem? (getElem?_shredAt hi)
  rcases mem_append.mp hmem with hmem | hmem
  · exact (h.isData _ hmem).1.length_payload
  · exact (h.isCoding _ hmem).2

/-- A missing data shred's buffer, once the coder wrote its block: the rest was zero in the shred
too. -/
theorem FecSet.withBlock_eq (hi : i < data.length) :
    withBlock data.length i (bufAt (data ++ coding) data.length first kept i)
      ((shredAt (data ++ coding) i).payload.take validDataLen) =
        (shredAt (data ++ coding) i).payload := by
  have hin : i < (data ++ coding).length := by
    rw [length_append]
    omega
  have hlen := h.length_payload hin
  have hmem : shredAt (data ++ coding) i ∈ data := by
    have hget := getElem?_shredAt hin
    rw [getElem?_append_left hi] at hget
    exact mem_of_getElem? hget
  have htake : ((shredAt (data ++ coding) i).payload.take validDataLen).length = validDataLen := by
    rw [length_take, hlen]
    rfl
  have htail : (bufAt (data ++ coding) data.length first kept i).drop validDataLen =
      (shredAt (data ++ coding) i).payload.drop validDataLen := by
    unfold bufAt
    by_cases hkept : i ∈ kept
    · rw [if_pos hkept]
    · rw [if_neg hkept, missingBlock, if_pos (by omega), h.data_tail _ hmem]
      decide +kernel
  unfold withBlock writeAt
  rw [if_pos hi, take_zero, nil_append, htake, Nat.zero_add, htail, take_append_drop]

/-- The buffers of a set, with the missing ones filled. -/
def bufsOf (set : List Shred) (numData first : Nat) (kept : List Nat) : List (List UInt8) :=
  (range set.length).map (bufAt set numData first kept)

def presentOf (set : List Shred) (kept : List Nat) : List Bool :=
  (range set.length).map fun i => decide (i ∈ kept)

theorem FecSet.length_bufAt (kept : List Nat) :
    ∀ buf ∈ bufsOf (data ++ coding) data.length first kept, buf.length = SHRED_PAYLOAD_SIZE := by
  intro buf hbuf
  obtain ⟨i, hi, rfl⟩ := mem_map.mp hbuf
  unfold bufAt
  split
  · exact h.length_payload (mem_range.mp hi)
  · exact length_missingBlock ..

end

theorem getElem?_bufsOf {numData : Nat} (kept : List Nat) (hi : i < set.length) :
    (bufsOf set numData first kept)[i]? = some (bufAt set numData first kept i) := by
  rw [bufsOf, getElem?_map, getElem?_range hi]
  rfl

/-- The window of a shred that is present is the block that was encoded at its position. -/
theorem getElem?_blocks (hi : i < (data ++ coding).length) :
    ((data.map fun s => s.payload.take validDataLen) ++ coding.map fun s =>
      s.payload.drop codingBlockOffset)[i]? =
      some (if i < data.length then (shredAt (data ++ coding) i).payload.take validDataLen
        else (shredAt (data ++ coding) i).payload.drop codingBlockOffset) := by
  have hget := getElem?_shredAt hi
  by_cases hd : i < data.length
  · rw [getElem?_append_left hd] at hget
    rw [if_pos hd, getElem?_append_left (by simpa using hd), getElem?_map, hget]
    rfl
  · rw [getElem?_append_right (Nat.not_lt.mp hd)] at hget
    rw [if_neg hd, getElem?_append_right (by simpa using hd), length_map, getElem?_map, hget]
    rfl

theorem length_filter_absent (hkept : kept.Nodup) (hbounds : ∀ i ∈ kept, i < set.length) :
    ((presentOf set kept).filter fun flag => !flag).length + kept.length = set.length := by
  have hperm : ((range set.length).filter fun i => decide (i ∈ kept)).Perm kept := by
    refine (perm_ext_iff_of_nodup (nodup_range.filter _) hkept).mpr fun i => ?_
    rw [mem_filter, mem_range, decide_eq_true_eq]
    exact and_iff_right_of_imp (hbounds i)
  have hsplit := length_eq_length_filter_add (l := range set.length) fun i => decide (i ∈ kept)
  rw [length_range, hperm.length_eq] at hsplit
  unfold presentOf
  rw [filter_map, length_map]
  have hsame : ((fun flag => !flag) ∘ fun i => decide (i ∈ kept)) = fun i => !decide (i ∈ kept) :=
    rfl
  rw [hsame]
  omega

theorem length_filter_zip {blocks : List (List UInt8)} {present : List Bool}
    (h : blocks.length = present.length) :
    ((blocks.zip present).filter fun b => !b.2).length =
      (present.filter fun flag => !flag).length := by
  have hsnd : (blocks.zip present).map Prod.snd = present := map_snd_zip h.ge
  conv_rhs => rw [← hsnd, filter_map, length_map]
  rfl

section

variable (h : FecSet rs slot first data coding)
include h

section

variable (hrs : rs.Reconstructs data.length coding.length) (hkept : kept.Nodup)
  (hbounds : ∀ i ∈ kept, i < (data ++ coding).length) (henough : data.length ≤ kept.length)
include hrs hkept hbounds henough

/-- **The coder restores the data blocks** of a set from enough of its shreds. -/
theorem FecSet.reconstructData :
    ∃ blocks, rs.reconstructData data.length coding.length
        ((blocksOf data.length (bufsOf (data ++ coding) data.length first kept)).zip
          (presentOf (data ++ coding) kept)) = .ok blocks ∧
      blocks.take data.length = data.map fun s => s.payload.take validDataLen := by
  obtain ⟨blank, hblank, hlen, hencoded⟩ := h.encoded
  have hbufs := h.length_bufAt kept
  have hcount : (blocksOf data.length (bufsOf (data ++ coding) data.length first kept)).length =
      (presentOf (data ++ coding) kept).length := by simp [length_blocksOf, bufsOf, presentOf]
  refine hrs.reconstruct_ok _ blank _ validDataLen (length_map _) hlen ?_ hencoded _ ?_ ?_ ?_ ?_
  · refine forall_mem_append.mpr ⟨fun b hb => ?_, hblank⟩
    obtain ⟨s, hs, rfl⟩ := mem_map.mp hb
    rw [length_take, (h.isData s hs).1.length_payload]
    rfl
  · rw [length_zip, hcount]
    simp [presentOf]
  · intro b hb
    exact length_of_mem_blocksOf hbufs (of_mem_zip hb).1
  · intro i b hb
    rw [getElem?_zip_eq_some] at hb
    obtain ⟨hblock, hflag⟩ := hb
    have hi : i < (data ++ coding).length := by
      have hlt := (List.getElem?_eq_some_iff.mp hflag).1
      simpa [presentOf] using hlt
    have hmem : i ∈ kept := by
      rw [presentOf, List.getElem?_map, List.getElem?_range hi] at hflag
      simpa using hflag
    rw [getElem?_blocks hi, ← hblock, blocksOf, getElem?_map, getElem?_zipIdx,
      getElem?_bufsOf kept hi]
    simp [bufAt, hmem]
  · rw [length_filter_zip hcount]
    have habsent := length_filter_absent hkept hbounds
    rw [length_append] at habsent
    omega

omit hrs hkept hbounds henough in
theorem FecSet.missing_eq (hbounds : ∀ i ∈ kept, i < (data ++ coding).length) :
    ((range (data ++ coding).length).filter (drained data.length fun i => decide (i ∈ kept))).map
        (shredAt (data ++ coding)) =
      data.filter fun s => decide (s ∉ kept.map (shredAt (data ++ coding))) := by
  have hdata : data = (range data.length).map (shredAt (data ++ coding)) := by
    conv_lhs => rw [← map_shredAt_range data]
    refine map_congr_left fun i hi => ?_
    rw [shredAt, shredAt, getElem?_append_left (mem_range.mp hi)]
  have hrange :
      (range (data ++ coding).length).filter (drained data.length fun i => decide (i ∈ kept)) =
      (range data.length).filter fun i => decide (i ∉ kept) := by
    rw [length_append, range_add, filter_append]
    have hnil : ((range coding.length).map (data.length + ·)).filter
        (drained data.length fun i => decide (i ∈ kept)) = [] := by
      rw [filter_eq_nil_iff]
      intro i hi
      obtain ⟨j, -, rfl⟩ := mem_map.mp hi
      simp [drained]
    rw [hnil, append_nil]
    refine filter_congr fun i hi => ?_
    simp [drained, mem_range.mp hi]
  have hfilter :=
    congrArg (List.filter fun s => decide (s ∉ kept.map (shredAt (data ++ coding)))) hdata
  rw [hrange, hfilter, filter_map]
  congr 1
  refine filter_congr fun i hi => decide_eq_decide.mpr (not_congr ?_)
  have hi' : i < (data ++ coding).length := by
    rw [length_append]
    exact Nat.lt_add_right _ (mem_range.mp hi)
  rw [mem_map]
  constructor
  · exact fun hmem => ⟨i, hmem, rfl⟩
  · rintro ⟨j, hj, heq⟩
    rw [← h.shredAt_inj (hbounds j hj) hi' heq]
    exact hj

/-- **From the buffers** of a set, filled where shreds are missing, the missing data shreds are
recovered. -/
theorem FecSet.reconstruct_eq :
    reconstruct rs data.length coding.length first slot
        (bufsOf (data ++ coding) data.length first kept) (presentOf (data ++ coding) kept) =
      .ok (data.filter fun s => decide (s ∉ kept.map (shredAt (data ++ coding)))) := by
  obtain ⟨blocks, hblocks, htake⟩ := h.reconstructData hrs hkept hbounds henough
  have hbufs := h.length_bufAt kept
  have hpresent : (presentOf (data ++ coding) kept).length =
      (bufsOf (data ++ coding) data.length first kept).length := by simp [presentOf, bufsOf]
  have hlen : blocks.length = (data ++ coding).length := by
    have hsized := (reconstructData_sized hbufs hpresent hblocks).1
    simpa [bufsOf] using hsized
  let written (i : Nat) : List UInt8 :=
    withBlock data.length i (bufAt (data ++ coding) data.length first kept i) ((blocks[i]?).getD [])
  have hwritten : ((bufsOf (data ++ coding) data.length first kept).zip blocks).mapIdx
      (fun position x => withBlock data.length position x.1 x.2) =
      (range' 0 (data ++ coding).length).map written := by
    refine ext_getElem (by simp [bufsOf, hlen]) fun i h₁ h₂ => ?_
    have hi : i < blocks.length := by
      rw [hlen]
      simpa using h₂
    simp [written, bufsOf, getElem?_eq_getElem hi]
  -- A drained buffer holds the whole payload again.
  have hrecovered : ∀ i < (data ++ coding).length, drained data.length
      (fun i => decide (i ∈ kept)) i →
      recoveredShred data.length first slot (written i) =
        .ok (some (shredAt (data ++ coding) i)) := by
    intro i hi hdrained
    have hd : i < data.length := of_decide_eq_true (Bool.and_eq_true_iff.mp hdrained).2
    have hget := getElem?_shredAt hi
    rw [getElem?_append_left hd] at hget
    have hblock : blocks[i]? = some ((shredAt (data ++ coding) i).payload.take validDataLen) := by
      rw [← getElem?_take_of_lt hd, htake, getElem?_map, hget]
      rfl
    obtain ⟨hs, hslot⟩ := h.isData _ (mem_of_getElem? hget)
    have hindex := h.data_index i _ hget
    have hpayload : written i = (shredAt (data ++ coding) i).payload := by
      change withBlock _ _ _ ((blocks[i]?).getD []) = _
      rw [hblock]
      exact h.withBlock_eq hd
    rw [hpayload, recoveredShred, hs.parse]
    dsimp only
    rw [if_pos ⟨hslot, by omega, by omega⟩]
  have hdrain := drainAll_eq hrecovered (data ++ coding).length 0 (Nat.zero_add _)
  unfold reconstruct
  rw [hrs.new_ok]
  rw [mapM_blockOf hbufs, liftPanic_ok, ok_bind, hblocks]
  dsimp only
  rw [hwritten]
  have hflags : presentOf (data ++ coding) kept =
      (range' 0 (data ++ coding).length).map fun i => decide (i ∈ kept) := by
    rw [presentOf, range_eq_range']
  have hstart : (⟨(range' 0 (data ++ coding).length).map written, 0, []⟩ : Drained) =
      drainedUpTo data.length written (fun i => decide (i ∈ kept)) (shredAt (data ++ coding)) 0
        (data ++ coding).length := rfl
  rw [hflags, hstart, hdrain, ← h.missing_eq hbounds]
  rfl

end

/-- **From enough shreds of a set**, in their order, `try_recovery` returns the data shreds that are
missing. -/
theorem FecSet.tryRecovery_eq (hrs : rs.Reconstructs data.length coding.length)
    {kept : List Shred} (hsub : kept.Sublist (data ++ coding))
    (henough : data.length ≤ kept.length) :
    tryRecovery rs kept data.length coding.length first first slot =
      .ok (data.filter fun s => decide (s ∉ kept)) := by
  obtain ⟨positions, hsorted, hbounds, rfl⟩ := exists_positions hsub
  have hnodup : positions.Nodup := hsorted.imp Nat.ne_of_lt
  rw [length_map] at henough
  have hpos := h.data_pos
  have hsizes : verifyConsistentShredPayloadSizes (positions.map (shredAt (data ++ coding))) =
      .ok () := by
    refine verifyConsistentShredPayloadSizes_ok (by rw [length_map]; omega) fun s hs => ?_
    obtain ⟨i, hi, rfl⟩ := mem_map.mp hs
    exact h.length_payload (hbounds i hi)
  unfold tryRecovery
  rw [hsizes]
  by_cases hmissing : 0 < coding.length ∧ (positions.map (shredAt (data ++ coding))).length <
      data.length + coding.length
  · rw [if_pos hmissing]
    obtain ⟨q, hq, hnone, hfold⟩ :=
      h.foldlM_place positions 0 hsorted (fun i hi => ⟨Nat.zero_le i, hbounds i hi⟩)
      (fun i _ => Iff.rfl) (Nat.zero_le _)
    have hstart : (⟨[], replicate (data.length + coding.length) true, first⟩ : Placed) =
        placedUpTo (data ++ coding) data.length first positions 0 := by
      congr 1
      simp
    have hfill :=
      fillInMissingShreds_between (data ++ coding) first length_append hq (Nat.le_refl _)
      fun i hi _ => hnone i hi
    rw [length_append] at hfill
    rw [hstart, hfold]
    change (liftPanic (fillInMissingShreds _ _ _ (first + q) _ _) >>= _) = _
    rw [hfill, liftPanic_ok, ok_bind]
    dsimp only
    have hbufs : (placedUpTo (data ++ coding) data.length first positions q).shredBufs ++
        (range' q (data.length + coding.length - q)).map
          (bufAt (data ++ coding) data.length first positions) =
        bufsOf (data ++ coding) data.length first positions := by
      rw [length_append] at hq
      unfold bufsOf placedUpTo
      rw [← map_append, range_append_range' hq, length_append]
    have hflags :
        (placedUpTo (data ++ coding) data.length first positions
          (data.length + coding.length)).present =
        presentOf (data ++ coding) positions := by
      refine map_congr_left fun i hi => decide_eq_decide.mpr (or_iff_right ?_)
      rw [mem_range, length_append] at hi
      omega
    rw [hbufs, hflags, if_neg (by simp [bufsOf])]
    exact h.reconstruct_eq hrs hnodup hbounds henough
  · rw [if_neg hmissing]
    -- Every shred of the set is there.
    have hall : ∀ i < (data ++ coding).length, i ∈ positions := by
      have habsent := length_filter_absent hnodup hbounds
      rw [length_map] at hmissing
      intro i hi
      by_contra hnot
      have hmem : false ∈ (presentOf (data ++ coding) positions).filter fun flag => !flag := by
        rw [mem_filter]
        refine ⟨mem_map.mpr ⟨i, mem_range.mpr hi, decide_eq_false hnot⟩, rfl⟩
      have hpos := length_pos_of_mem hmem
      rw [length_append] at habsent
      omega
    refine congrArg Except.ok (Eq.symm ?_)
    rw [filter_eq_nil_iff]
    intro s hs hnot
    obtain ⟨i, hi, rfl⟩ := mem_iff_getElem.mp (mem_append_left coding hs)
    refine of_decide_eq_true hnot (mem_map.mpr ⟨i, hall i hi, ?_⟩)
    exact shredAt_eq (getElem?_eq_getElem hi)

end

end Set

/-! ## The data shreds of serialized entries -/

/-- The serialized entries and the zeros that fill up the last shred. -/
def paddedPayload (bytes : List UInt8) : List UInt8 :=
  bytes ++
    replicate
      ((chunks SIZE_OF_DATA_SHRED_PAYLOAD bytes).length * SIZE_OF_DATA_SHRED_PAYLOAD - bytes.length)
        0

structure DataShredAt (slot next : Nat) (bytes : List UInt8) (i : Nat) (s : Shred) : Prop where
  isData : s.IsDataShred
  slot : s.slot = slot
  index : s.index = next + i
  fecSetIndex :
    s.fecSetIndex = next + i / MAX_DATA_SHREDS_PER_FEC_BLOCK * MAX_DATA_SHREDS_PER_FEC_BLOCK
  tail : s.payload.drop validDataLen = replicate (SHRED_PAYLOAD_SIZE - validDataLen) 0
  content : bytesAt s.payload (SIZE_OF_COMMON_SHRED_HEADER + SIZE_OF_DATA_SHRED_HEADER)
      (validDataLen - (SIZE_OF_COMMON_SHRED_HEADER + SIZE_OF_DATA_SHRED_HEADER)) =
    ((paddedPayload bytes).drop (i * SIZE_OF_DATA_SHRED_PAYLOAD)).take SIZE_OF_DATA_SHRED_PAYLOAD

section Made

variable (slot : UInt64) (index : UInt32) (parentOffset : UInt16) (shredData : List UInt8)
  (isLastInFecSet isLastInSlot : Bool) (referenceTick : UInt8) (version : UInt16)
  (fecSetIndex : UInt32)

/-- The data of a shred that was made, with the zeros behind it. -/
theorem drop_payload_newFromData :
    (newFromData slot index parentOffset shredData isLastInFecSet isLastInSlot referenceTick version
      fecSetIndex).payload.drop 88 = shredData ++ replicate (1140 - shredData.length) 0 := by
  have hpayload :=
    payload_newFromData slot index parentOffset shredData isLastInFecSet isLastInSlot referenceTick
  rw [hpayload, append_assoc]
  exact drop_left' (by simp)

variable {shredData} (hdata : shredData.length ≤ SIZE_OF_DATA_SHRED_PAYLOAD)
include hdata

theorem tail_newFromData :
    (newFromData slot index parentOffset shredData isLastInFecSet isLastInSlot referenceTick version
      fecSetIndex).payload.drop validDataLen = replicate (SHRED_PAYLOAD_SIZE - validDataLen) 0 := by
  have hdata' : shredData.length ≤ 1051 := hdata
  have hdrop :=
    congrArg (List.drop 1051)
      (drop_payload_newFromData slot index parentOffset shredData isLastInFecSet
    isLastInSlot referenceTick version fecSetIndex)
  rw [drop_drop] at hdrop
  refine hdrop.trans ?_
  rw [drop_append, drop_eq_nil_of_le hdata', drop_replicate]
  refine congrArg (replicate · 0) ?_
  change 1140 - shredData.length - (1051 - shredData.length) = 89
  omega

theorem content_newFromData :
    bytesAt
      (newFromData slot index parentOffset shredData isLastInFecSet isLastInSlot
        referenceTick version
      fecSetIndex).payload (SIZE_OF_COMMON_SHRED_HEADER + SIZE_OF_DATA_SHRED_HEADER)
        SIZE_OF_DATA_SHRED_PAYLOAD =
      shredData ++ replicate (SIZE_OF_DATA_SHRED_PAYLOAD - shredData.length) 0 := by
  have hdata' : shredData.length ≤ 1051 := hdata
  have htake :=
    congrArg (List.take 1051)
      (drop_payload_newFromData slot index parentOffset shredData isLastInFecSet
    isLastInSlot referenceTick version fecSetIndex)
  refine htake.trans ?_
  rw [take_append, take_of_length_le hdata', take_replicate]
  refine congrArg (shredData ++ replicate · 0) ?_
  change min (1051 - shredData.length) (1140 - shredData.length) = 1051 - shredData.length
  omega

end Made

theorem drop_signShred {start : Nat} (hstart : 64 ≤ start)
    (hlen : 64 ≤ s.payload.length) :
    (signShred signMessage s).payload.drop start = s.payload.drop start := by
  refine drop_writeAt ?_ ?_
  · exact hstart
  · exact hlen

/-- A chunk with zeros up to the size of a chunk is a slice of the padded list. -/
theorem take_drop_padded (hi : i * m ≤ bytes.length) (htotal : (i + 1) * m ≤ total) :
    ((bytes ++ replicate (total - bytes.length) 0).drop (i * m)).take m =
      (bytes.drop (i * m)).take m ++ replicate (m - ((bytes.drop (i * m)).take m).length) 0 := by
  rw [drop_append_of_le_length hi, take_append, take_replicate]
  congr 2
  rw [Nat.succ_mul] at htotal
  simp only [length_drop, length_take]
  omega

section Entries

theorem length_entriesToDataShreds : (sh.entriesToDataShreds bytes isLastInSlot next).1.length =
    (bytes.length + SIZE_OF_DATA_SHRED_PAYLOAD - 1) / SIZE_OF_DATA_SHRED_PAYLOAD := by
  unfold entriesToDataShreds
  rw [length_mapIdx, length_chunks]

theorem toNat_next_add (h : next.toNat + i < 2 ^ 32) :
    (next + UInt32.ofNat i).toNat = next.toNat + i := by
  rw [UInt32.toNat_add, UInt32.toNat_ofNat', Nat.mod_eq_of_lt (by omega : i < 2 ^ 32),
    Nat.mod_eq_of_lt h]

/-- Each data shred has its index, its set and its part of the bytes. -/
theorem dataShredAt (hparent : (sh.slot - sh.parentSlot).toUInt16.toNat ≤ sh.slot.toNat)
    (hfits : next.toNat + (bytes.length + SIZE_OF_DATA_SHRED_PAYLOAD - 1) /
      SIZE_OF_DATA_SHRED_PAYLOAD ≤ 2 ^ 32)
    (hs : (sh.entriesToDataShreds bytes isLastInSlot next).1[i]? = some s) :
    DataShredAt sh.slot.toNat next.toNat bytes i s := by
  have hi := (List.getElem?_eq_some_iff.mp hs).1
  rw [length_entriesToDataShreds] at hi
  unfold entriesToDataShreds at hs
  rw [List.getElem?_mapIdx, List.getElem?_eq_getElem (by rw [length_chunks]; exact hi),
    getElem_chunks] at hs
  obtain rfl := Option.some.inj hs
  have hchunk :
      ((bytes.drop (i * SIZE_OF_DATA_SHRED_PAYLOAD)).take SIZE_OF_DATA_SHRED_PAYLOAD).length ≤
      SIZE_OF_DATA_SHRED_PAYLOAD := length_take_le _ _
  have hmade := fun fec last => isDataShred_newFromData sh.slot (next + UInt32.ofNat i)
    (sh.slot - sh.parentSlot).toUInt16 _ last (last && isLastInSlot) sh.referenceTick sh.version
      fec hchunk hparent
  have hindex : (next + UInt32.ofNat i).toNat = next.toNat + i := toNat_next_add (by omega)
  constructor
  case isData => exact (hmade _ _).sign sh.signMessage
  case slot => rfl
  case index => exact hindex
  case fecSetIndex =>
    have hmod : i % MAX_DATA_SHREDS_PER_FEC_BLOCK ≤ i := Nat.mod_le _ _
    have hsmall : (UInt32.ofNat (i % MAX_DATA_SHREDS_PER_FEC_BLOCK)).toNat =
        i % MAX_DATA_SHREDS_PER_FEC_BLOCK := by
      rw [UInt32.toNat_ofNat', Nat.mod_eq_of_lt (by omega)]
    change (next + UInt32.ofNat i - UInt32.ofNat (i % MAX_DATA_SHREDS_PER_FEC_BLOCK)).toNat = _
    rw [UInt32.toNat_sub_of_le _ _ (UInt32.le_iff_toNat_le.mpr (by omega))]
    have hdiv := Nat.div_add_mod i MAX_DATA_SHREDS_PER_FEC_BLOCK
    rw [Nat.mul_comm] at hdiv
    omega
  case tail =>
    refine (drop_signShred (by decide) ?_).trans (tail_newFromData _ _ _ _ _ _ _ _ hchunk)
    rw [(hmade _ _).length_payload]
    decide
  case content =>
    have hbefore : i * SIZE_OF_DATA_SHRED_PAYLOAD ≤ bytes.length := by
      have hle : (i + 1) * SIZE_OF_DATA_SHRED_PAYLOAD ≤
          bytes.length + SIZE_OF_DATA_SHRED_PAYLOAD - 1 :=
        (Nat.le_div_iff_mul_le (by decide)).mp hi
      rw [Nat.succ_mul] at hle
      omega
    have hpadded := take_drop_padded hbefore
      (Nat.mul_le_mul_right SIZE_OF_DATA_SHRED_PAYLOAD
        (length_chunks SIZE_OF_DATA_SHRED_PAYLOAD bytes ▸ hi))
    unfold paddedPayload
    rw [hpadded,
      ← content_newFromData sh.slot (next + UInt32.ofNat i) (sh.slot - sh.parentSlot).toUInt16 _ _
      sh.referenceTick sh.version _ hchunk]
    refine congrArg (List.take SIZE_OF_DATA_SHRED_PAYLOAD) (drop_signShred (by decide) ?_)
    rw [(hmade _ _).length_payload]
    decide

end Entries

/-! ## The coding shreds of a set -/

theorem length_newEmptyCoding (slot : UInt64) (index fecSetIndex : UInt32)
    (numData numCode position : Nat) (version : UInt16) :
    (newEmptyCoding slot index fecSetIndex numData numCode position version).payload.length =
      SHRED_PAYLOAD_SIZE := by
  have hheader (h : ShredCommonHeader) :
      (writeAt (replicate SHRED_PAYLOAD_SIZE 0) 0 h.bytes).length = SHRED_PAYLOAD_SIZE := by
    rw [length_writeAt, length_replicate]
    rw [h.length_bytes, length_replicate]
    decide
  change (writeAt (writeAt _ 0 _) SIZE_OF_COMMON_SHRED_HEADER _).length = _
  rw [length_writeAt, hheader]
  rw [hheader, CodingShredHeader.length_bytes]
  decide

/-- The coding shred at a position, with its block. -/
def codingShred (slot : UInt64) (startIndex : UInt32) (numData numCoding : Nat)
    (version : UInt16) (i : Nat) (block : List UInt8) : Shred :=
  let empty :=
    newEmptyCoding slot (startIndex + UInt32.ofNat i) startIndex numData numCoding i version
  { empty with payload := writeAt empty.payload codingBlockOffset block }

section Coding

variable {slot : UInt64} {startIndex : UInt32} {numData : Nat}
  (hblock : block.length = validDataLen)
include hblock

theorem length_codingShred :
    (codingShred slot startIndex numData numCoding version i block).payload.length =
      SHRED_PAYLOAD_SIZE := by
  change (writeAt _ codingBlockOffset block).length = _
  rw [length_writeAt, length_newEmptyCoding]
  rw [length_newEmptyCoding, hblock]
  decide

theorem drop_codingShred :
    (codingShred slot startIndex numData numCoding version i block).payload.drop
    codingBlockOffset = block := by
  have hlen :=
    length_newEmptyCoding slot (startIndex + UInt32.ofNat i) startIndex numData numCoding i version
  change (writeAt _ codingBlockOffset block).drop codingBlockOffset = _
  unfold writeAt
  rw [drop_left' (by rw [length_take, hlen]; decide), drop_eq_nil_of_le, append_nil]
  rw [hlen, hblock]
  decide

end Coding

/-- The blocks of new coding shreds. -/
def blankBlocks (slot : UInt64) (startIndex : UInt32) (numData numCoding : Nat)
    (version : UInt16) : List (List UInt8) :=
  (range numCoding).map fun i =>
    (newEmptyCoding slot (startIndex + UInt32.ofNat i) startIndex numData numCoding i
      version).payload.drop codingBlockOffset

/-- The blocks that the coder makes of the blank ones of a batch. -/
structure Parity (rs : ReedSolomon) (slot : UInt64) (startIndex : UInt32) (numCoding : Nat)
    (version : UInt16) (batch : List Shred) (parity : List (List UInt8)) : Prop where
  encoded : rs.encodeSep batch.length numCoding (batch.map fun s => s.payload.take validDataLen)
    (blankBlocks slot startIndex batch.length numCoding version) = .ok parity
  length_eq : parity.length = numCoding
  sizes : ∀ b ∈ parity, b.length = validDataLen

section Parity

variable {slot : UInt64} {startIndex : UInt32} {numData : Nat} {parity : List (List UInt8)}

theorem length_blankBlocks :
    (blankBlocks slot startIndex numData numCoding version).length = numCoding := by
  simp [blankBlocks]

theorem sizes_blankBlocks :
    ∀ b ∈ blankBlocks slot startIndex numData numCoding version, b.length = validDataLen := by
  intro b hb
  obtain ⟨i, -, rfl⟩ := mem_map.mp hb
  rw [length_drop, length_newEmptyCoding]
  rfl

theorem exists_parity (startIndex : UInt32) (version : UInt16)
    (hisData : ∀ s ∈ batch, s.IsDataShred ∧ s.slot = slot.toNat)
    (hrs : rs.Reconstructs batch.length numCoding) :
    ∃ parity, Parity rs slot startIndex numCoding version batch parity := by
  have hsizes : ∀ b ∈ (batch.map fun s => s.payload.take validDataLen) ++
      blankBlocks slot startIndex batch.length numCoding version, b.length = validDataLen := by
    refine forall_mem_append.mpr ⟨fun b hb => ?_, sizes_blankBlocks⟩
    obtain ⟨s, hs, rfl⟩ := mem_map.mp hb
    rw [length_take, (hisData s hs).1.length_payload]
    rfl
  obtain ⟨parity, hparity⟩ :=
    hrs.encode_ok _ _ validDataLen (by decide) (length_map _) length_blankBlocks hsizes
  have hlengths := rs.encodeSep_lengths _ _ _ _ _ hparity
  refine ⟨parity, hparity, ?_, fun b hb => ?_⟩
  · have hcount := congrArg List.length hlengths
    rwa [length_map, length_map, length_blankBlocks] at hcount
  · have hmem := hlengths ▸ mem_map_of_mem (f := List.length) hb
    obtain ⟨b', hb', heq⟩ := mem_map.mp hmem
    rw [← heq]
    exact sizes_blankBlocks b' hb'

section

variable (h : Parity rs slot startIndex numCoding version batch parity)
include h

theorem Parity.getElem?_coding (hs : ((parity.mapIdx
      (codingShred slot startIndex numData numCoding version)).map (signShred signMessage))[i]? =
        some s) :
    i < numCoding ∧ ∃ block, parity[i]? = some block ∧ block.length = validDataLen ∧
      s = signShred signMessage (codingShred slot startIndex numData numCoding version i block) := by
  rw [getElem?_map, getElem?_mapIdx] at hs
  obtain ⟨s', hs', rfl⟩ := Option.map_eq_some_iff.mp hs
  obtain ⟨block, hblock, rfl⟩ := Option.map_eq_some_iff.mp hs'
  exact ⟨h.length_eq ▸ (List.getElem?_eq_some_iff.mp hblock).1, block, hblock,
    h.sizes block (List.mem_of_getElem? hblock), rfl⟩

theorem Parity.blocks : (((parity.mapIdx
      (codingShred slot startIndex numData numCoding version)).map (signShred signMessage)).map
        fun s => s.payload.drop codingBlockOffset) = parity := by
  refine ext_getElem? fun i => ?_
  rw [getElem?_map]
  cases hs : ((parity.mapIdx (codingShred slot startIndex numData numCoding version)).map
      (signShred signMessage))[i]? with
  | none =>
    rw [List.getElem?_eq_none_iff, length_map, length_mapIdx] at hs
    rw [List.getElem?_eq_none hs]
    rfl
  | some s =>
    obtain ⟨-, block, hblock, hsize, rfl⟩ := h.getElem?_coding hs
    rw [hblock, Option.map_some, drop_signShred (by decide), drop_codingShred hsize]
    rw [length_codingShred hsize]
    decide

end

theorem length_signShred_codingShred (hblock : block.length = validDataLen) :
    (signShred signMessage
      (codingShred slot startIndex numData numCoding version i block)).payload.length =
        SHRED_PAYLOAD_SIZE := by
  have hlen : (codingShred slot startIndex numData numCoding version i block).payload.length =
      SHRED_PAYLOAD_SIZE := length_codingShred hblock
  change (writeAt _ 0 _).length = _
  rw [length_writeAt, hlen]
  rw [length_signatureBytes, hlen]
  decide

end Parity

/-- **The coding shreds of a batch** of data shreds form an erasure set with it. -/
theorem generateCodingShreds_fecSet {slot : UInt64} (signMessage : List UInt8 → Signature)
    (hrate : fecRate.isZero = false) (hpos : 0 < batch.length)
    (hisData : ∀ s ∈ batch, s.IsDataShred ∧ s.slot = slot.toNat)
    (hindex : ∀ (i : Nat) s, batch[i]? = some s → s.index = first + i)
    (htail : ∀ s ∈ batch, s.payload.drop validDataLen =
      replicate (SHRED_PAYLOAD_SIZE - validDataLen) 0)
    (hfits : first + batch.length ≤ 2 ^ 32)
    (hrs : rs.Reconstructs batch.length
      (calculateNumCodingShreds batch.length fecRate batch.length)) :
    ∃ coding, generateCodingShreds rs slot fecRate batch version batch.length = .ok coding ∧
      coding.length = calculateNumCodingShreds batch.length fecRate batch.length ∧
      FecSet rs slot.toNat first batch (coding.map (signShred signMessage)) ∧
      ∀ s ∈ coding.map (signShred signMessage), s.fecSetIndex = first := by
  obtain ⟨s₀, rest, rfl⟩ := exists_cons_of_length_pos hpos
  set batch := s₀ :: rest with hbatch
  set numCoding := calculateNumCodingShreds batch.length fecRate batch.length with hnumCoding
  have hcoding : 0 < numCoding ∧ numCoding ≤ batch.length := by
    rw [hnumCoding, calculateNumCodingShreds, if_neg hpos.ne']
    omega
  have hstart : s₀.commonHeader.index.toNat = first := hindex 0 s₀ rfl
  obtain ⟨parity, hparity⟩ := exists_parity s₀.commonHeader.index version hisData hrs
  let coding :=
    parity.mapIdx (codingShred slot s₀.commonHeader.index batch.length numCoding version)
  have hcodingLength : coding.length = numCoding := by simp [coding, hparity.length_eq]
  have hgenerate : generateCodingShreds rs slot fecRate batch version batch.length =
      .ok coding := by
    have hencoded := hparity.encoded
    unfold blankBlocks at hencoded
    unfold generateCodingShreds
    rw [hbatch]
    dsimp only
    rw [hrate, hrs.new_ok]
    rw [hencoded]
    rfl
  have hcodingAt : ∀ (i : Nat) s, (coding.map (signShred signMessage))[i]? = some s →
      i < numCoding ∧ ∃ block, parity[i]? = some block ∧ block.length = validDataLen ∧
        s = signShred signMessage
          (codingShred slot s₀.commonHeader.index batch.length numCoding version i block) :=
    fun i s hs => hparity.getElem?_coding hs
  refine ⟨coding, hgenerate, hcodingLength, ?_, ?_⟩
  · constructor
    case encoded =>
      refine ⟨blankBlocks slot s₀.commonHeader.index batch.length numCoding version,
        sizes_blankBlocks, ?_, ?_⟩
      · rw [length_blankBlocks, length_map, hcodingLength]
      · rw [length_map, hcodingLength, hparity.encoded]
        exact congrArg Except.ok hparity.blocks.symm
    case isData => exact hisData
    case data_index => exact hindex
    case data_tail => exact htail
    case isCoding =>
      intro s hs
      obtain ⟨i, hi⟩ := mem_iff_getElem?.mp hs
      obtain ⟨-, block, -, hsize, rfl⟩ := hcodingAt i s hi
      exact ⟨rfl, length_signShred_codingShred hsize⟩
    case coding_index =>
      intro i s hs
      obtain ⟨hi, block, -, -, rfl⟩ := hcodingAt i s hs
      change (s₀.commonHeader.index + UInt32.ofNat i).toNat = _
      rw [toNat_next_add (by omega), hstart]
    case data_pos => exact hpos
    case coding_pos =>
      rw [length_map, hcodingLength]
      exact hcoding.1
    case fits =>
      rw [length_map]
      unfold U64
      omega
  · intro s hs
    obtain ⟨i, hi⟩ := mem_iff_getElem?.mp hs
    obtain ⟨-, block, -, -, rfl⟩ := hcodingAt i s hi
    exact hstart

/-! ## All the shreds -/

def fecSet (fecSetIndex : Nat) (shreds : List Shred) : List Shred :=
  shreds.filter fun s => decide (s.fecSetIndex = fecSetIndex)

/-- The part of a concatenation with one key, when every piece has a key of its own. -/
theorem filter_flatten_eq {pieces : List (List α)} {key : α → Nat} {keyAt : Nat → Nat}
    (hinj : ∀ i j, keyAt i = keyAt j → i = j)
    (hkey : ∀ (i : Nat) piece, pieces[i]? = some piece → ∀ x ∈ piece, key x = keyAt i) {k : Nat}
    {piece : List α}
    (hk : pieces[k]? = some piece) :
    pieces.flatten.filter (fun x => decide (key x = keyAt k)) = piece := by
  induction pieces generalizing keyAt k with
  | nil => cases hk
  | cons head pieces ih =>
    have hhead := hkey 0 head rfl
    have htail : ∀ (i : Nat) piece, pieces[i]? = some piece → ∀ x ∈ piece, key x = keyAt (i + 1) :=
      fun i piece hi => hkey (i + 1) piece hi
    rw [flatten_cons, filter_append]
    cases k with
    | zero =>
      obtain rfl := Option.some.inj hk
      have hall : head.filter (fun x => decide (key x = keyAt 0)) = head :=
        filter_eq_self.mpr fun x hx => decide_eq_true (hhead x hx)
      have hnone : pieces.flatten.filter (fun x => decide (key x = keyAt 0)) = [] := by
        rw [filter_eq_nil_iff]
        intro x hx heq
        obtain ⟨piece, hpiece, hx⟩ := mem_flatten.mp hx
        obtain ⟨i, hi⟩ := mem_iff_getElem?.mp hpiece
        have hsame := (htail i piece hi x hx).symm.trans (of_decide_eq_true heq)
        exact absurd (hinj _ _ hsame) (Nat.succ_ne_zero i)
      rw [hall, hnone, append_nil]
    | succ k =>
      have hnone : head.filter (fun x => decide (key x = keyAt (k + 1))) = [] := by
        rw [filter_eq_nil_iff]
        intro x hx heq
        have hsame := (hhead x hx).symm.trans (of_decide_eq_true heq)
        exact absurd (hinj _ _ hsame).symm (Nat.succ_ne_zero k)
      have hinj' : ∀ i j, keyAt (i + 1) = keyAt (j + 1) → i = j :=
        fun i j h => Nat.succ.inj (hinj _ _ h)
      rw [hnone]
      exact ih hinj' htail hk

theorem parentOffset_le {slot parentSlot : UInt64} {referenceTick : UInt8}
    (h : new slot parentSlot fecRate signMessage referenceTick version = .ok sh) :
    sh = { slot, parentSlot, version, fecRate, signMessage, referenceTick } ∧
      (sh.slot - sh.parentSlot).toUInt16.toNat ≤ sh.slot.toNat := by
  obtain ⟨-, h⟩ := ite_error_eq_ok.mp h
  obtain ⟨hslots, h⟩ := ite_error_eq_ok.mp h
  cases h
  refine ⟨rfl, ?_⟩
  have hle : parentSlot ≤ slot := by
    by_contra hlt
    refine hslots (Bool.or_eq_true_iff.mpr (.inl (decide_eq_true ?_)))
    exact UInt64.not_le.mp hlt
  rw [UInt64.toNat_toUInt16, UInt64.toNat_sub_of_le _ _ hle]
  exact (Nat.mod_le _ _).trans (Nat.sub_le _ _)

section All

section

variable (hdata : ∀ (i : Nat) s, data[i]? = some s → DataShredAt sh.slot.toNat next.toNat bytes i s)
include hdata

/-- The number of data shreds in a set. -/
def batchSize (total k : Nat) : Nat :=
  min MAX_DATA_SHREDS_PER_FEC_BLOCK (total - k * MAX_DATA_SHREDS_PER_FEC_BLOCK)

theorem dataBatch {k : Nat}
    (hbatch : (chunks MAX_DATA_SHREDS_PER_FEC_BLOCK data)[k]? = some batch) :
    batch.length = batchSize data.length k ∧ k * MAX_DATA_SHREDS_PER_FEC_BLOCK < data.length ∧
      ∀ (i : Nat) s, batch[i]? = some s →
        DataShredAt sh.slot.toNat next.toNat bytes (k * MAX_DATA_SHREDS_PER_FEC_BLOCK + i) s := by
  obtain ⟨hk, hget⟩ := List.getElem?_eq_some_iff.mp hbatch
  rw [getElem_chunks] at hget
  rw [length_chunks] at hk
  have hlt : (k + 1) * MAX_DATA_SHREDS_PER_FEC_BLOCK ≤
      data.length + MAX_DATA_SHREDS_PER_FEC_BLOCK - 1 :=
    (Nat.le_div_iff_mul_le (by decide)).mp hk
  rw [Nat.succ_mul] at hlt
  have hpos : 0 < MAX_DATA_SHREDS_PER_FEC_BLOCK := by decide
  subst hget
  refine ⟨by rw [length_take, length_drop, batchSize], by omega, fun i s hs => ?_⟩
  · refine hdata _ s ?_
    have hi := (List.getElem?_eq_some_iff.mp hs).1
    rw [List.length_take] at hi
    rwa [List.getElem?_take_of_lt (by omega), List.getElem?_drop] at hs

/-- **The coding shreds** of all data shreds, batch by batch. -/
theorem dataShredsToCodingShreds_eq (hrate : sh.fecRate.isZero = false)
    (hfits : next.toNat + data.length ≤ 2 ^ 32)
    (hrs : ∀ k, k * MAX_DATA_SHREDS_PER_FEC_BLOCK < data.length →
      rs.Reconstructs (batchSize data.length k)
      (calculateNumCodingShreds (batchSize data.length k) sh.fecRate (batchSize data.length k))) :
    ∃ sets : List (List Shred), sh.dataShredsToCodingShreds rs data = .ok sets.flatten ∧
      sets.length = (chunks MAX_DATA_SHREDS_PER_FEC_BLOCK data).length ∧
      ∀ (k : Nat) batch set, (chunks MAX_DATA_SHREDS_PER_FEC_BLOCK data)[k]? = some batch →
        sets[k]? = some set → rs.Reconstructs batch.length set.length ∧ set.length ≤ batch.length ∧
        FecSet rs sh.slot.toNat (next.toNat + k * MAX_DATA_SHREDS_PER_FEC_BLOCK) batch set ∧
        ∀ s ∈ set, s.fecSetIndex = next.toNat + k * MAX_DATA_SHREDS_PER_FEC_BLOCK := by
  have hset : ∀ (k : Nat) batch, (chunks MAX_DATA_SHREDS_PER_FEC_BLOCK data)[k]? = some batch →
      rs.Reconstructs batch.length (calculateNumCodingShreds batch.length sh.fecRate batch.length) ∧
      calculateNumCodingShreds batch.length sh.fecRate batch.length ≤ batch.length ∧
      ∃ coding, generateCodingShreds rs sh.slot sh.fecRate batch sh.version batch.length =
        .ok coding ∧
        coding.length = calculateNumCodingShreds batch.length sh.fecRate batch.length ∧
        FecSet rs sh.slot.toNat (next.toNat + k * MAX_DATA_SHREDS_PER_FEC_BLOCK) batch
          (coding.map (signShred sh.signMessage)) ∧
        ∀ s ∈ coding.map (signShred sh.signMessage), s.fecSetIndex =
          next.toNat + k * MAX_DATA_SHREDS_PER_FEC_BLOCK := by
    intro k batch hbatch
    obtain ⟨hlen, hin, hat⟩ := dataBatch hdata hbatch
    have hreconstructs := hrs k hin
    rw [← hlen] at hreconstructs
    have hpos : 0 < batch.length := by
      rw [hlen, batchSize, MAX_DATA_SHREDS_PER_FEC_BLOCK] at *
      omega
    have hmax : batch.length ≤ MAX_DATA_SHREDS_PER_FEC_BLOCK ∧
        k * MAX_DATA_SHREDS_PER_FEC_BLOCK + batch.length ≤ data.length := by
      rw [hlen, batchSize]
      omega
    have hcoding : 1 ≤ calculateNumCodingShreds batch.length sh.fecRate batch.length ∧
        calculateNumCodingShreds batch.length sh.fecRate batch.length ≤ batch.length := by
      rw [calculateNumCodingShreds, if_neg hpos.ne']
      omega
    refine ⟨hreconstructs, hcoding.2,
      generateCodingShreds_fecSet sh.signMessage hrate hpos ?_ ?_ ?_ (by omega) hreconstructs⟩
    · intro s hs
      obtain ⟨i, hi⟩ := mem_iff_getElem?.mp hs
      exact ⟨(hat i s hi).isData, (hat i s hi).slot⟩
    · intro i s hs
      rw [(hat i s hs).index, Nat.add_assoc]
    · intro s hs
      obtain ⟨i, hi⟩ := mem_iff_getElem?.mp hs
      exact (hat i s hi).tail
  obtain ⟨codings, hcodings⟩ := exists_mapM_eq_ok
    fun batch hbatch => by
      obtain ⟨k, hk⟩ := mem_iff_getElem?.mp hbatch
      obtain ⟨-, -, coding, hcoding, -⟩ := hset k batch hk
      exact ⟨coding, hcoding⟩
  have hforall := mapM_eq_ok hcodings
  refine ⟨codings.map (List.map (signShred sh.signMessage)), ?_, ?_,
    fun k batch set hbatch hk => ?_⟩
  · unfold dataShredsToCodingShreds
    rw [hcodings, ← map_flatten]
    rfl
  · rw [length_map, hforall.length_eq]
  · rw [getElem?_map] at hk
    obtain ⟨coding, hcoding, rfl⟩ := Option.map_eq_some_iff.mp hk
    obtain ⟨hreconstructs, hle, coding', hgenerate, hlen, hfec, hindex⟩ := hset k batch hbatch
    have hsame : coding' = coding := by
      have hat := (List.forall₂_iff_get.mp hforall).2 k (List.getElem?_eq_some_iff.mp hbatch).1
        (List.getElem?_eq_some_iff.mp hcoding).1
      rw [List.get_eq_getElem, List.get_eq_getElem, (List.getElem?_eq_some_iff.mp hbatch).2,
        (List.getElem?_eq_some_iff.mp hcoding).2, hgenerate] at hat
      exact Except.ok.inj hat
    subst hsame
    rw [List.length_map, hlen]
    exact ⟨hreconstructs, hle, hfec, hindex⟩

/-! ### The bytes back -/

theorem reassemblePayload_eq
    (hlen : data.length = (chunks SIZE_OF_DATA_SHRED_PAYLOAD bytes).length) :
    reassemblePayload (data.map payload) = paddedPayload bytes := by
  have hslices : (data.map payload).map (fun payload =>
      bytesAt payload (SIZE_OF_COMMON_SHRED_HEADER + SIZE_OF_DATA_SHRED_HEADER)
        (validDataLen - (SIZE_OF_COMMON_SHRED_HEADER + SIZE_OF_DATA_SHRED_HEADER))) =
      (range data.length).map fun i =>
        ((paddedPayload bytes).drop (i * SIZE_OF_DATA_SHRED_PAYLOAD)).take
          SIZE_OF_DATA_SHRED_PAYLOAD := by
    refine ext_getElem (by simp) fun i h₁ h₂ => ?_
    have hi : i < data.length := by simpa using h₂
    rw [getElem_map, getElem_map, getElem_map, getElem_range]
    exact (hdata i data[i] (getElem?_eq_getElem hi)).content
  have hcover : (paddedPayload bytes).length ≤ data.length * SIZE_OF_DATA_SHRED_PAYLOAD := by
    have hle : bytes.length ≤ data.length * SIZE_OF_DATA_SHRED_PAYLOAD := by
      have hdiv :=
        Nat.div_add_mod (bytes.length + SIZE_OF_DATA_SHRED_PAYLOAD - 1) SIZE_OF_DATA_SHRED_PAYLOAD
      have hmod := Nat.mod_lt (bytes.length + SIZE_OF_DATA_SHRED_PAYLOAD - 1)
        (by decide : 0 < SIZE_OF_DATA_SHRED_PAYLOAD)
      rw [hlen, length_chunks, Nat.mul_comm]
      omega
    rw [paddedPayload, length_append, length_replicate, ← hlen]
    omega
  rw [reassemblePayload, flatMap_def, hslices, flatten_map_range, take_of_length_le hcover]

end

theorem and_or_eq (flags mask : UInt8) : (flags ||| mask) &&& mask = mask := by
  apply UInt8.eq_of_toBitVec_eq
  ext i hi
  cases hbit : mask.toBitVec[i] <;> simp [hbit]

theorem dataComplete_last
    (hm : (bytes.length + SIZE_OF_DATA_SHRED_PAYLOAD - 1) / SIZE_OF_DATA_SHRED_PAYLOAD = m + 1)
    (hs : (sh.entriesToDataShreds bytes isLastInSlot next).1[m]? = some s) :
    s.dataComplete = true := by
  have hlast : next + UInt32.ofNat (m + 1) - 1 = next + UInt32.ofNat m := by
    rw [UInt32.ofNat_add, ← UInt32.add_assoc]
    exact UInt32.add_sub_cancel _ _
  unfold entriesToDataShreds at hs
  dsimp only at hs
  rw [hm, hlast, getElem?_mapIdx] at hs
  obtain ⟨chunk, -, rfl⟩ := Option.map_eq_some_iff.mp hs
  refine Bool.and_eq_true_iff.mpr ⟨rfl, beq_iff_eq.mpr ?_⟩
  have hflags : ∀ flags : UInt8,
      (if isLastInSlot then flags ||| DATA_COMPLETE_SHRED ||| LAST_SHRED_IN_SLOT
      else flags ||| DATA_COMPLETE_SHRED) &&& DATA_COMPLETE_SHRED = DATA_COMPLETE_SHRED := by
    intro flags
    cases isLastInSlot with
    | false => exact and_or_eq flags _
    | true =>
      rw [UInt8.or_assoc, UInt8.or_comm DATA_COMPLETE_SHRED, ← UInt8.or_assoc]
      exact and_or_eq _ _
  simp only [beq_self_eq_true]
  exact hflags _

/-- **The data shreds** give the bytes back, with zeros behind them. -/
theorem deshred_entriesToDataShreds
    (hdata : ∀ (i : Nat) s, (sh.entriesToDataShreds bytes isLastInSlot next).1[i]? = some s →
      DataShredAt sh.slot.toNat next.toNat bytes i s) (hbytes : bytes ≠ []) :
    deshred (sh.entriesToDataShreds bytes isLastInSlot next).1 = .ok (paddedPayload bytes) := by
  have hlen : (sh.entriesToDataShreds bytes isLastInSlot next).1.length =
    (bytes.length + SIZE_OF_DATA_SHRED_PAYLOAD - 1) / SIZE_OF_DATA_SHRED_PAYLOAD :=
      length_entriesToDataShreds
  have hpos : 0 < (bytes.length + SIZE_OF_DATA_SHRED_PAYLOAD - 1) / SIZE_OF_DATA_SHRED_PAYLOAD := by
    refine Nat.div_pos ?_ (by decide)
    have hbytes' := length_pos_iff.mpr hbytes
    omega
  obtain ⟨m, hm⟩ := Nat.exists_eq_add_one.mpr hpos
  set data := (sh.entriesToDataShreds bytes isLastInSlot next).1 with hdef
  have hlast : m < data.length := by
    rw [hlen, hm]
    exact Nat.lt_succ_self m
  obtain ⟨first, hfirst⟩ : ∃ s, data[0]? = some s :=
    ⟨_, getElem?_eq_getElem (Nat.zero_lt_of_lt hlast)⟩
  obtain ⟨last, hlast⟩ : ∃ s, data[m]? = some s := ⟨_, getElem?_eq_getElem hlast⟩
  have hhead : data.head? = some first := by
    rw [head?_eq_getElem?]
    exact hfirst
  have hend : data.getLast? = some last := by
    rw [getLast?_eq_getElem?, hlen, hm]
    exact hlast
  have hcomplete : last.dataComplete = true := dataComplete_last hm hlast
  have hsizes : verifyConsistentShredPayloadSizes data = .ok () := by
    refine verifyConsistentShredPayloadSizes_ok (hlen ▸ hpos) fun s hs => ?_
    obtain ⟨i, hi⟩ := mem_iff_getElem?.mp hs
    exact (hdata i s hi).isData.length_payload
  have hcount : ¬ data.length + first.index ≠ last.index + 1 := by
    rw [(hdata 0 _ hfirst).index, (hdata m _ hlast).index]
    omega
  unfold deshred
  rw [hsizes, hhead, hend]
  dsimp only
  rw [hcomplete, Bool.true_or, if_pos rfl, if_neg hcount,
    reassemblePayload_eq hdata (by rw [hlen, length_chunks])]

end All

/-! ## Lossless -/

/-- What is assumed of `bincode` for entries: no serialization is empty, and zeros behind one are
ignored. -/
structure EntryCodec (ε : Type) where
  serialize : List ε → List UInt8
  deserialize : List UInt8 → Option (List ε)
  serialize_ne_nil : ∀ entries, serialize entries ≠ []
  deserialize_padded : ∀ entries n, deserialize (serialize entries ++ replicate n 0) = some entries

/-- **Shredding is lossless** as long as the indices fit in 32 bits: from any shreds of a set that
are at least as many as its data shreds the missing data shreds are recovered, and the data shreds
give the entries back. -/
theorem entriesToShreds_lossless {ε : Type} (codec : EntryCodec ε) (rs : ReedSolomon)
    {slot parentSlot : UInt64}
    {fecRate : FecRate} {signMessage : List UInt8 → Signature} {referenceTick : UInt8}
    {version : UInt16} {sh : Shredder}
    (hnew : Shredder.new slot parentSlot fecRate signMessage referenceTick version = .ok sh)
    (hrate : fecRate.isZero = false) (entries : List ε) (isLastInSlot : Bool) (next : UInt32)
    (hfits : next.toNat + ((codec.serialize entries).length + SIZE_OF_DATA_SHRED_PAYLOAD - 1) /
      SIZE_OF_DATA_SHRED_PAYLOAD ≤ 2 ^ 32)
    (hrs : ∀ k total, total = ((codec.serialize entries).length + SIZE_OF_DATA_SHRED_PAYLOAD - 1)
        / SIZE_OF_DATA_SHRED_PAYLOAD → k * MAX_DATA_SHREDS_PER_FEC_BLOCK < total →
      rs.Reconstructs (batchSize total k)
        (calculateNumCodingShreds (batchSize total k) fecRate (batchSize total k))) :
    ∃ data coding last, sh.entriesToShreds rs codec.serialize entries isLastInSlot next =
      .ok (data, coding, last) ∧ (∀ f ∈ data.map fecSetIndex, 1 ≤ (fecSet f coding).length ∧
        (fecSet f coding).length ≤ (fecSet f data).length ∧
        ∀ kept : List Shred, kept.Sublist (fecSet f data ++ fecSet f coding) →
          (fecSet f data).length ≤ kept.length →
          tryRecovery rs kept (fecSet f data).length (fecSet f coding).length f f slot.toNat =
            .ok ((fecSet f data).filter fun s => decide (s ∉ kept))) ∧
      ∃ n, deshred data = .ok (codec.serialize entries ++ replicate n 0) ∧
        codec.deserialize (codec.serialize entries ++ replicate n 0) = some entries := by
  obtain ⟨hsh, hparent⟩ := parentOffset_le hnew
  have hslot : sh.slot = slot := by rw [hsh]
  have hfec : sh.fecRate = fecRate := by rw [hsh]
  set bytes := codec.serialize entries with hbytes
  set data := (sh.entriesToDataShreds bytes isLastInSlot next).1 with hdata
  have hlen : data.length = (bytes.length + SIZE_OF_DATA_SHRED_PAYLOAD - 1) /
      SIZE_OF_DATA_SHRED_PAYLOAD :=
    length_entriesToDataShreds
  have hat : ∀ (i : Nat) s, data[i]? = some s → DataShredAt sh.slot.toNat next.toNat bytes i s :=
    fun i s hs =>
    dataShredAt hparent hfits hs
  rw [← hlen] at hfits
  obtain ⟨sets, hcoding, hcount, hsets⟩ := dataShredsToCodingShreds_eq hat (hfec ▸ hrate) hfits
    fun k hk => hfec ▸ hrs k _ hlen hk
  refine ⟨data, sets.flatten, (sh.entriesToDataShreds bytes isLastInSlot next).2, ?_, ?_, _,
    deshred_entriesToDataShreds hat (codec.serialize_ne_nil entries),
      codec.deserialize_padded entries _⟩
  · change (sh.dataShredsToCodingShreds rs data >>= _) = _
    rw [hcoding]
    rfl
  · intro f hf
    obtain ⟨s, hs, rfl⟩ := mem_map.mp hf
    obtain ⟨i, hi⟩ := mem_iff_getElem?.mp hs
    set k := i / MAX_DATA_SHREDS_PER_FEC_BLOCK with hk
    -- The set of the shred is the batch that it is in.
    have hkey := (hat i s hi).fecSetIndex
    have hin : k < (chunks MAX_DATA_SHREDS_PER_FEC_BLOCK data).length := by
      have hlt := (List.getElem?_eq_some_iff.mp hi).1
      have hmul := Nat.div_mul_le_self i MAX_DATA_SHREDS_PER_FEC_BLOCK
      rw [← hk] at hmul
      rw [length_chunks, ← Nat.succ_le_iff, Nat.le_div_iff_mul_le (by decide), Nat.succ_mul]
      omega
    have hbatch := getElem?_eq_getElem hin
    have hset := getElem?_eq_getElem (hcount ▸ hin : k < sets.length)
    obtain ⟨hreconstructs, hle, hfec, hindex⟩ := hsets k _ _ hbatch hset
    have hinj : ∀ i j : Nat, next.toNat + i * MAX_DATA_SHREDS_PER_FEC_BLOCK =
        next.toNat + j * MAX_DATA_SHREDS_PER_FEC_BLOCK → i = j := fun i j h =>
      Nat.eq_of_mul_eq_mul_right (by decide : 0 < MAX_DATA_SHREDS_PER_FEC_BLOCK)
        (Nat.add_left_cancel h)
    have hdataSet : fecSet s.fecSetIndex data = (chunks MAX_DATA_SHREDS_PER_FEC_BLOCK data)[k] := by
      have hflatten := flatten_chunks (by decide : 0 < MAX_DATA_SHREDS_PER_FEC_BLOCK) data
      rw [hkey]
      conv_lhs => rw [← hflatten]
      refine filter_flatten_eq hinj (fun j batch hj t ht => ?_) hbatch
      obtain ⟨hsize, -, hbatchAt⟩ := dataBatch hat hj
      obtain ⟨q, hq⟩ := mem_iff_getElem?.mp ht
      have hqlt := (List.getElem?_eq_some_iff.mp hq).1
      rw [hsize, batchSize] at hqlt
      rw [(hbatchAt q t hq).fecSetIndex, Nat.add_comm (j * _),
        Nat.add_mul_div_right _ _ (by decide),
        Nat.div_eq_of_lt (by omega), Nat.zero_add]
    have hcodingSet : fecSet s.fecSetIndex sets.flatten = sets[k] := by
      rw [hkey]
      refine filter_flatten_eq hinj (fun j set hj t ht => ?_) hset
      have hjlt := (List.getElem?_eq_some_iff.mp hj).1
      exact (hsets j _ set (List.getElem?_eq_getElem (hcount ▸ hjlt)) hj).2.2.2 t ht
    rw [hdataSet, hcodingSet, hkey, ← hslot]
    exact ⟨hfec.coding_pos, hle, fun kept hsub henough =>
      hfec.tryRecovery_eq hreconstructs hsub henough⟩

/-! ### Two data shreds and their parity -/

def xorBlock (a b : List UInt8) : List UInt8 := zipWith (· ^^^ ·) a b

theorem xorBlock_cancel {a b : List UInt8} (h : a.length = b.length) :
    xorBlock b (xorBlock a b) = a ∧ xorBlock a (xorBlock a b) = b := by
  induction a generalizing b with
  | nil => exact ⟨by cases b <;> rfl, (length_eq_zero_iff.mp h.symm).symm⟩
  | cons x a ih =>
    obtain ⟨y, b, rfl⟩ := exists_cons_of_length_eq_add_one h.symm
    obtain ⟨hb, ha⟩ := ih (Nat.succ.inj h)
    refine ⟨congrArg₂ cons ?_ hb, congrArg₂ cons ?_ ha⟩
    · change y ^^^ (x ^^^ y) = x
      rw [UInt8.xor_comm x, ← UInt8.xor_assoc, UInt8.xor_self, UInt8.zero_xor]
    · change x ^^^ (x ^^^ y) = y
      rw [← UInt8.xor_assoc, UInt8.xor_self, UInt8.zero_xor]

/-- A coder for two data blocks and one coding block. -/
def parityCoder : ReedSolomon where
  new _ _ := .ok ()
  encodeSep _ _ data parity :=
    match data, parity with
    | [a, b], [p] => if a.length = p.length ∧ b.length = p.length then .ok [xorBlock a b]
      else .error (.session 0)
    | _, _ => .error (.session 0)
  reconstructData _ _ blocks :=
    match blocks with
    | [a, b, p] =>
      if a.1.length = p.1.length ∧ b.1.length = p.1.length then
        .ok [if a.2 then a.1 else xorBlock b.1 p.1, if b.2 then b.1 else xorBlock a.1 p.1, p.1]
      else .error (.session 0)
    | _ => .error (.session 0)
  encodeSep_lengths := by
    intro _ _ data parity parity' h
    split at h
    · split at h
      · rename_i hlen
        cases h
        simp [xorBlock, hlen]
      · cases h
    · cases h
  reconstructData_lengths := by
    intro _ _ blocks blocks' h
    split at h
    · split at h
      · rename_i a b p hlen
        cases h
        cases a.2 <;> cases b.2 <;> simp [xorBlock, hlen]
      · cases h
    · cases h

theorem parityCoder_reconstructs : parityCoder.Reconstructs 2 1 := by
  constructor
  case new_ok => rfl
  case encode_ok =>
    intro data parity size _ hdata hparity hsize
    obtain ⟨a, b, rfl⟩ := length_eq_two.mp hdata
    obtain ⟨p, rfl⟩ := length_eq_one_iff.mp hparity
    exact ⟨[xorBlock a b], if_pos ⟨by simp [hsize], by simp [hsize]⟩⟩
  case reconstruct_ok =>
    intro data parity parity' size hdata hparity hsize hencode blocks hlen hblocks hpresent hmissing
    obtain ⟨a, b, rfl⟩ := length_eq_two.mp hdata
    obtain ⟨p, rfl⟩ := length_eq_one_iff.mp hparity
    obtain ⟨⟨a', fa⟩, ⟨b', fb⟩, ⟨p', fp⟩, rfl⟩ := length_eq_three.mp hlen
    have hp : parity' = [xorBlock a b] := by
      have hsizes : a.length = p.length ∧ b.length = p.length := ⟨by simp [hsize], by simp [hsize]⟩
      simp only [parityCoder, if_pos hsizes] at hencode
      exact (Except.ok.inj hencode).symm
    have hcancel : xorBlock b (xorBlock a b) = a ∧ xorBlock a (xorBlock a b) = b :=
      xorBlock_cancel (by simp [hsize])
    have ha : fa = true → a' = a :=
      fun h => by simpa [hp, eq_comm] using hpresent 0 a' (by simp [h])
    have hb : fb = true → b' = b :=
      fun h => by simpa [hp, eq_comm] using hpresent 1 b' (by simp [h])
    have hpar : fp = true → p' = xorBlock a b :=
      fun h => by simpa [hp, eq_comm] using hpresent 2 p' (by simp [h])
    have hsizes : a'.length = size ∧ b'.length = size ∧ p'.length = size := by simpa using hblocks
    refine ⟨_, if_pos ⟨hsizes.1.trans hsizes.2.2.symm, hsizes.2.1.trans hsizes.2.2.symm⟩, ?_⟩
    -- at most one of the three is missing
    cases fa <;> cases fb <;> cases fp <;> simp_all

/-- Entries without content, serialized as their number in unary. -/
def unaryCodec : EntryCodec Unit where
  serialize entries := replicate entries.length 1 ++ [2]
  deserialize bytes := some (replicate (bytes.takeWhile (· == 1)).length ())
  serialize_ne_nil _ := by simp
  deserialize_padded entries n := by
    have htake : (replicate entries.length (1 : UInt8) ++ [2] ++ replicate n 0).takeWhile (· == 1) =
        replicate entries.length 1 := by
      rw [append_assoc, takeWhile_append_of_pos (by simp)]
      simp
    rw [htake, length_replicate]
    exact congrArg some (eq_replicate_iff.mpr ⟨rfl, fun _ _ => rfl⟩).symm

def plainShredder : Shredder :=
  { slot := 1
    parentSlot := 0
    version := 0
    fecRate := { inRange := true, isZero := false, times := fun n => n / 2 }
    signMessage := fun _ => 0
    referenceTick := 0 }

theorem plainShredder_new :
    Shredder.new 1 0 plainShredder.fecRate plainShredder.signMessage 0 0 = .ok plainShredder := rfl

/-- Entries that take two data shreds: any two of the three shreds give them back. -/
theorem entriesToShreds_lossless_two_shreds :
    ∃ data coding last,
      plainShredder.entriesToShreds parityCoder unaryCodec.serialize (replicate 1051 ()) true 0 =
        .ok (data, coding, last) ∧ data.length = 2 ∧ coding.length = 1 ∧
      (∀ kept : List Shred, kept.Sublist (data ++ coding) → 2 ≤ kept.length →
        tryRecovery parityCoder kept 2 1 0 0 1 = .ok (data.filter fun s => decide (s ∉ kept))) ∧
      ∃ n, deshred data = .ok (unaryCodec.serialize (replicate 1051 ()) ++ replicate n 0) := by
  obtain ⟨data, coding, last, hmade, hsets, n, hdeshred, -⟩ :=
    entriesToShreds_lossless unaryCodec parityCoder plainShredder_new rfl (replicate 1051 ()) true 0
      (by decide +kernel)
      fun k total htotal hk => by
        obtain rfl : total = 2 := htotal.trans (by decide +kernel)
        obtain rfl : k = 0 := by
          unfold MAX_DATA_SHREDS_PER_FEC_BLOCK at hk
          omega
        exact parityCoder_reconstructs
  have hindices :
      (plainShredder.entriesToShreds parityCoder unaryCodec.serialize
        (replicate 1051 ()) true 0).map
      (fun r => (r.1.map fecSetIndex, r.2.1.map fecSetIndex)) =
        .ok ([0, 0], [0]) := by decide +kernel
  rw [hmade] at hindices
  obtain ⟨hdata, hcoding⟩ := Prod.mk.inj (Except.ok.inj hindices)
  -- All three are of the set with index 0.
  have hset (shreds : List Shred) (h : ∀ f ∈ shreds.map fecSetIndex, f = 0) : fecSet 0 shreds =
      shreds :=
    filter_eq_self.mpr fun s hs => decide_eq_true (h _ (mem_map_of_mem hs))
  have hdataSet := hset data (by simp [hdata])
  have hcodingSet := hset coding (by simp [hcoding])
  have hlen : data.length = 2 := by simpa using congrArg List.length hdata
  have hlen' : coding.length = 1 := by simpa using congrArg List.length hcoding
  obtain ⟨-, -, hrecover⟩ := hsets 0 (by simp [hdata])
  rw [hdataSet, hcodingSet, hlen, hlen'] at hrecover
  exact ⟨data, coding, last, hmade, hlen, hlen', hrecover, n, hdeshred⟩

/-- Two data shreds from the last index of a `u32` on: the second index wraps to 0, and the shreds
do not count as complete. -/
theorem deshred_wrapped_index :
    Shredder.new 1 0 plainShredder.fecRate plainShredder.signMessage 0 0 = .ok plainShredder ∧
      deshred
        (plainShredder.entriesToDataShreds (unaryCodec.serialize (replicate 1051 ()))
          true 0xffffffff).1 =
        .error .tooFewDataShards := by
  refine ⟨rfl, ?_⟩
  decide +kernel

end Shredder

end Panoptes.Ledger
