import Panoptes.Lib.Reorder
import Panoptes.Sdk.Transaction

/-!
# The status cache

`runtime/src/status_cache.rs`: the statuses of recent transactions, by blockhash and by a slice of
the signature.  The position of the slice is drawn at random for each blockhash; `keyIndex` is what
is drawn.

* `insert`, `getSignatureStatus` — record and look up a status.
* `SameUpToOrder` — caches that differ in the order of the lists they keep.
* `insert_congr`, `insert_swap` — statuses are recorded in any order, up to that.
* `recorded_status` — they are found.
-/

set_option autoImplicit false

namespace Panoptes.Runtime

open Lib Sdk
open Std (ExtTreeMap ExtTreeSet)

/-- `CACHED_SIGNATURE_SIZE` bytes of a signature. -/
abbrev SignatureSlice := BitVec (8 * 20)

/-- The slice of a signature that starts at a byte. -/
def sliceAt (sig : Signature) (index : Nat) : SignatureSlice :=
  sig.extractLsb' (8 * (64 - index - 20)) (8 * 20)

/-- The statuses of transactions with one blockhash: the highest slot, the position of the slices,
and the forks of each slice. -/
structure BlockhashStatus (T : Type) where
  slot : Nat
  index : Nat
  signatures : ExtTreeMap SignatureSlice (List (Nat × T))

structure StatusCache (T : Type) where
  cache : ExtTreeMap Hash (BlockhashStatus T)
  roots : ExtTreeSet Nat
  slotDeltas : ExtTreeMap Nat (ExtTreeMap Hash (Nat × List (SignatureSlice × T)))

namespace StatusCache

variable {T α : Type} {sigIndex : Nat} {sigSlice : SignatureSlice} {res : T}

/-- `StatusCache::default()`; 0 is always a root. -/
def new : StatusCache T := ⟨∅, (∅ : ExtTreeSet Nat).insert 0, ∅⟩

def addStatus (slot sigIndex : Nat) (sigSlice : SignatureSlice) (res : T)
    (e : Option (BlockhashStatus T)) : BlockhashStatus T :=
  let e := e.getD ⟨slot, sigIndex, ∅⟩
  ⟨max slot e.slot, e.index, upsert e.signatures sigSlice fun forks =>
    forks.getD [] ++ [(slot, res)]⟩

def addDelta (sigIndex : Nat) (blockhash : Hash) (sigSlice : SignatureSlice) (res : T)
    (deltas : Option (ExtTreeMap Hash (Nat × List (SignatureSlice × T)))) :
    ExtTreeMap Hash (Nat × List (SignatureSlice × T)) :=
  upsert (deltas.getD ∅) blockhash fun entry =>
    ((entry.getD (sigIndex, [])).1, (entry.getD (sigIndex, [])).2 ++ [(sigSlice, res)])

def insertWithSlice (c : StatusCache T) (blockhash : Hash) (slot sigIndex : Nat)
    (sigSlice : SignatureSlice) (res : T) : StatusCache T :=
  { c with
    cache := upsert c.cache blockhash (addStatus slot sigIndex sigSlice res)
    slotDeltas := upsert c.slotDeltas slot (addDelta sigIndex blockhash sigSlice res) }

variable (keyIndex : Hash → Nat) (c : StatusCache T)

/-- The position of the slices of a blockhash: the one in the cache, or the one that is drawn. -/
def sigIndexOf (blockhash : Hash) : Nat :=
  match c.cache[blockhash]? with
  | some e => e.index
  | none => keyIndex blockhash

def insert (blockhash : Hash) (sig : Signature) (slot : Nat) (res : T) : StatusCache T :=
  let sigIndex := sigIndexOf keyIndex c blockhash
  c.insertWithSlice blockhash slot sigIndex (sliceAt sig sigIndex) res

def getSignatureStatus (c : StatusCache T) (sig : Signature) (blockhash : Hash)
    (ancestors : ExtTreeSet Nat) : Option (Nat × T) := do
  let e ← c.cache[blockhash]?
  let forks ← e.signatures[sliceAt sig e.index]?
  forks.find? fun f => ancestors.contains f.1 || c.roots.contains f.1

/-! ## The order of the statuses -/

/-- The same statuses, in lists of any order. -/
def SameStatus (e e' : BlockhashStatus T) : Prop :=
  e.slot = e'.slot ∧ e.index = e'.index ∧ MapRel List.Perm e.signatures e'.signatures

def SameDelta (d d' : Nat × List (SignatureSlice × T)) : Prop := d.1 = d'.1 ∧ d.2.Perm d'.2

/-- The caches differ in the order of the lists they keep. -/
structure SameUpToOrder (c c' : StatusCache T) : Prop where
  cache : MapRel SameStatus c.cache c'.cache
  roots : c.roots = c'.roots
  slotDeltas : MapRel (MapRel SameDelta) c.slotDeltas c'.slotDeltas

theorem SameStatus.refl (e : BlockhashStatus T) : SameStatus e e :=
  ⟨rfl, rfl, MapRel.refl (fun _ => .refl _) _⟩

theorem SameStatus.trans (a b c : BlockhashStatus T) (h : SameStatus a b) (h' : SameStatus b c) :
    SameStatus a c :=
  ⟨h.1.trans h'.1, h.2.1.trans h'.2.1, h.2.2.trans (fun _ _ _ => List.Perm.trans) h'.2.2⟩

theorem SameDelta.refl (d : Nat × List (SignatureSlice × T)) : SameDelta d d := ⟨rfl, .refl _⟩

theorem SameDelta.trans (a b c : Nat × List (SignatureSlice × T)) (h : SameDelta a b)
    (h' : SameDelta b c) : SameDelta a c := ⟨h.1.trans h'.1, h.2.trans h'.2⟩

namespace SameUpToOrder

variable {c c' c'' : StatusCache T}

theorem refl (c : StatusCache T) : SameUpToOrder c c :=
  ⟨MapRel.refl SameStatus.refl _, rfl, MapRel.refl (MapRel.refl SameDelta.refl) _⟩

theorem trans (h : SameUpToOrder c c') (h' : SameUpToOrder c' c'') : SameUpToOrder c c'' :=
  ⟨h.cache.trans SameStatus.trans h'.cache, h.roots.trans h'.roots,
    h.slotDeltas.trans (fun _ _ _ => MapRel.trans SameDelta.trans) h'.slotDeltas⟩

theorem sigIndexOf_eq (h : SameUpToOrder c c') (keyIndex : Hash → Nat) (blockhash : Hash) :
    sigIndexOf keyIndex c blockhash = sigIndexOf keyIndex c' blockhash := by
  have hrel := h.cache blockhash
  unfold sigIndexOf
  revert hrel
  cases c.cache[blockhash]? <;> cases c'.cache[blockhash]? <;> rintro ⟨⟩
  · rfl
  · rename_i hsame
    exact hsame.2.1

end SameUpToOrder

theorem perm_push {o o' : Option (List α)} (h : Option.Rel List.Perm o o') (a : α) :
    (o.getD [] ++ [a]).Perm (o'.getD [] ++ [a]) := by
  cases h with
  | none => exact .refl _
  | some h => exact h.append_right _

theorem addStatus_congr {slot : Nat} {o o' : Option (BlockhashStatus T)}
    (h : Option.Rel SameStatus o o') :
    SameStatus (addStatus slot sigIndex sigSlice res o)
      (addStatus slot sigIndex sigSlice res o') := by
  have hsame : SameStatus (o.getD ⟨slot, sigIndex, ∅⟩) (o'.getD ⟨slot, sigIndex, ∅⟩) := by
    cases h with
    | none => exact SameStatus.refl _
    | some h => exact h
  obtain ⟨hslot, hindex, hsig⟩ := hsame
  refine ⟨congrArg (max slot) hslot, hindex, hsig.upsert fun hrel => ?_⟩
  exact perm_push hrel _

theorem addDelta_congr {blockhash : Hash}
    {o o' : Option (ExtTreeMap Hash (Nat × List (SignatureSlice × T)))}
    (h : Option.Rel (MapRel SameDelta) o o') :
    MapRel SameDelta (addDelta sigIndex blockhash sigSlice res o)
      (addDelta sigIndex blockhash sigSlice res o') := by
  have hsame : MapRel SameDelta (o.getD ∅) (o'.getD ∅) := by
    cases h with
    | none => exact MapRel.refl SameDelta.refl _
    | some h => exact h
  refine hsame.upsert fun hrel => ?_
  revert hrel
  cases (o.getD ∅)[blockhash]? <;> cases (o'.getD ∅)[blockhash]? <;> rintro ⟨⟩
  · exact SameDelta.refl _
  · rename_i hd
    exact ⟨hd.1, hd.2.append_right _⟩

theorem perm_push_push (l : List α) (a b : α) : (l ++ [a] ++ [b]).Perm (l ++ [b] ++ [a]) := by
  rw [List.append_assoc, List.append_assoc]
  exact (List.Perm.swap b a []).append_left l

theorem insert_congr (keyIndex : Hash → Nat) {c c' : StatusCache T} (h : SameUpToOrder c c')
    (blockhash : Hash) (sig : Signature) (slot : Nat) (res : T) :
    SameUpToOrder (c.insert keyIndex blockhash sig slot res)
      (c'.insert keyIndex blockhash sig slot res) := by
  unfold insert
  rw [h.sigIndexOf_eq]
  exact ⟨h.cache.upsert addStatus_congr, h.roots, h.slotDeltas.upsert addDelta_congr⟩

/-- An insertion leaves the position of the slices, or makes it the one that is drawn. -/
theorem sigIndexOf_insert (blockhash other : Hash) (sig : Signature)
    (slot : Nat) (res : T) :
    sigIndexOf keyIndex (c.insert keyIndex blockhash sig slot res) other =
      sigIndexOf keyIndex c other := by
  have hentry : (c.insert keyIndex blockhash sig slot res).cache[other]?
      = if other = blockhash then some (addStatus slot (sigIndexOf keyIndex c blockhash)
          (sliceAt sig (sigIndexOf keyIndex c blockhash)) res c.cache[blockhash]?)
            else c.cache[other]? :=
    getElem?_upsert ..
  rw [sigIndexOf, hentry]
  split
  · rename_i e he
    by_cases hother : other = blockhash
    · rw [if_pos hother] at he
      cases he
      rw [hother]
      unfold sigIndexOf
      cases c.cache[blockhash]? with
      | none => rfl
      | some e => rfl
    · rw [if_neg hother] at he
      rw [sigIndexOf, he]
  · rename_i he
    by_cases hother : other = blockhash
    · rw [if_pos hother] at he
      cases he
    · rw [if_neg hother] at he
      rw [sigIndexOf, he]

theorem addStatus_swap (slot index : Nat) (s₁ s₂ : SignatureSlice) (r₁ r₂ : T)
    (e : Option (BlockhashStatus T)) :
    SameStatus (addStatus slot index s₂ r₂ (some (addStatus slot index s₁ r₁ e)))
      (addStatus slot index s₁ r₁ (some (addStatus slot index s₂ r₂ e))) := by
  simp only [addStatus, Option.getD_some]
  refine ⟨rfl, rfl, ?_⟩
  exact MapRel.upsert_comm (fun _ => List.Perm.refl _) _ fun _ => perm_push_push _ _ _

theorem addDelta_swap (h₁ h₂ : Hash) {i₁ i₂ : Nat} (hindex : h₁ = h₂ → i₁ = i₂)
    (s₁ s₂ : SignatureSlice)
    (r₁ r₂ : T) (o : Option (ExtTreeMap Hash (Nat × List (SignatureSlice × T)))) :
    MapRel SameDelta (addDelta i₂ h₂ s₂ r₂ (some (addDelta i₁ h₁ s₁ r₁ o)))
      (addDelta i₁ h₁ s₁ r₁ (some (addDelta i₂ h₂ s₂ r₂ o))) := by
  simp only [addDelta, Option.getD_some]
  refine MapRel.upsert_comm SameDelta.refl _ fun hh => ?_
  subst hh
  rw [hindex rfl]
  exact ⟨rfl, perm_push_push _ _ _⟩

/-- **Two insertions of one slot can be swapped**, up to the order of lists. -/
theorem insert_swap (slot : Nat) (h₁ h₂ : Hash) (sig₁ sig₂ : Signature)
    (r₁ r₂ : T) :
    SameUpToOrder ((c.insert keyIndex h₁ sig₁ slot r₁).insert keyIndex h₂ sig₂ slot r₂)
      ((c.insert keyIndex h₂ sig₂ slot r₂).insert keyIndex h₁ sig₁ slot r₁) := by
  rw [insert.eq_1 keyIndex (c.insert keyIndex h₁ sig₁ slot r₁),
    insert.eq_1 keyIndex (c.insert keyIndex h₂ sig₂ slot r₂),
    sigIndexOf_insert, sigIndexOf_insert]
  have hindex : h₁ = h₂ → sigIndexOf keyIndex c h₁ = sigIndexOf keyIndex c h₂ := congrArg _
  refine ⟨MapRel.upsert_comm SameStatus.refl _ fun hh => ?_, rfl,
    MapRel.upsert_comm (MapRel.refl SameDelta.refl) _ fun _ => ?_⟩
  · rw [hindex hh]
    exact addStatus_swap ..
  · exact addDelta_swap _ _ hindex _ _ _ _ _

variable {h h' : Hash} {sig sig' : Signature} {slot : Nat} {ancestors : ExtTreeSet Nat}
  {r : Nat × T}

theorem status_insert (hr : c.getSignatureStatus sig h ancestors = some r) :
    (c.insert keyIndex h' sig' slot res).getSignatureStatus sig h ancestors = some r := by
  obtain ⟨e, he, hr⟩ := Option.bind_eq_some_iff.mp hr
  obtain ⟨forks, hf, hr⟩ := Option.bind_eq_some_iff.mp hr
  simp only [getSignatureStatus, insert, insertWithSlice, getElem?_upsert]
  split
  · rename_i hh
    rw [← hh, sigIndexOf, he]
    simp only [addStatus, Option.bind_eq_bind, Option.bind_some, getElem?_upsert]
    split
    · rename_i heq
      simp [← heq, hf, hr]
    · simp [hf, hr]
  · simp [he, hf, hr]

/-- **A recorded transaction is found**, with one status ever after. -/
theorem recorded_status : ∃ r, ∀ later : List (Hash × Signature × Nat × T),
    (later.foldl (fun c t => c.insert keyIndex t.1 t.2.1 t.2.2.1 t.2.2.2)
      (c.insert keyIndex h sig slot res)).getSignatureStatus sig h (ancestors.insert slot) =
        some r := by
  obtain ⟨r, hr⟩ :
    ∃ r, (c.insert keyIndex h sig slot res).getSignatureStatus sig h (ancestors.insert slot) =
      some r := by
    rw [← Option.isSome_iff_exists]
    cases he : c.cache[h]? <;>
      simp [getSignatureStatus, insert, insertWithSlice, getElem?_upsert, sigIndexOf, addStatus, he]
  refine ⟨r, fun later => ?_⟩
  induction later using List.reverseRecOn with
  | nil => exact hr
  | append_singleton _ _ ih =>
    rw [List.foldl_append]
    exact status_insert keyIndex _ ih

end StatusCache

end Panoptes.Runtime
