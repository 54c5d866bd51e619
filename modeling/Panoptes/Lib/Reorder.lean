import Panoptes.Lib.SortedMap

/-!
# Updates of entries in any order

* `upsert` — the entry of a key is replaced by what a function makes of it, or of its absence.
* `MapRel` — maps with the same keys, and entries in a relation.  `MapRel.upsert` and
  `MapRel.upsert_comm` are its rules: an update respects it, and two updates can be swapped.
* `foldl_perm` — a loop whose steps can be swapped, up to a relation, runs over a list in any order.
-/

set_option autoImplicit false

namespace Panoptes.Lib

open Std (ExtTreeMap)

section Maps

variable {α β : Type} [DecidableEq α] [Ord α] [Std.TransOrd α] [Std.LawfulEqOrd α]

/-- Replace the entry of a key. -/
def upsert (m : ExtTreeMap α β) (k : α) (f : Option β → β) : ExtTreeMap α β := m.insert k (f m[k]?)

theorem getElem?_upsert (m : ExtTreeMap α β) (k a : α) (f : Option β → β) :
    (upsert m k f)[a]? = if a = k then some (f m[k]?) else m[a]? := getElem?_insert_ite m k a _

/-- The maps have the same keys, and entries that `R` relates. -/
def MapRel (R : β → β → Prop) (m m' : ExtTreeMap α β) : Prop := ∀ k : α, Option.Rel R m[k]? m'[k]?

variable {R : β → β → Prop} {m m' m'' : ExtTreeMap α β}

omit [DecidableEq α] [Std.LawfulEqOrd α] in
theorem MapRel.refl (hrefl : ∀ b, R b b) (m : ExtTreeMap α β) : MapRel R m m := by
  intro k
  cases m[k]? with
  | none => exact .none
  | some b => exact .some (hrefl b)

omit [DecidableEq α] [Std.LawfulEqOrd α] in
theorem MapRel.trans (htrans : ∀ a b c, R a b → R b c → R a c) (h : MapRel R m m')
    (h' : MapRel R m' m'') : MapRel R m m'' := by
  intro k
  have hk := h k
  have hk' := h' k
  revert hk hk'
  cases m[k]? <;> cases m'[k]? <;> cases m''[k]? <;> rintro ⟨⟩ ⟨⟩
  · exact .none
  · exact .some (htrans _ _ _ ‹_› ‹_›)

theorem MapRel.upsert (h : MapRel R m m') {k : α} {f f' : Option β → β}
    (hf : Option.Rel R m[k]? m'[k]? → R (f m[k]?) (f' m'[k]?)) :
    MapRel R (upsert m k f) (Lib.upsert m' k f') := by
  intro a
  rw [getElem?_upsert, getElem?_upsert]
  split
  · exact .some (hf (h k))
  · exact h a

/-- **Two updates can be swapped**, if they can at one key. -/
theorem MapRel.upsert_comm (hrefl : ∀ b, R b b) (m : ExtTreeMap α β) {k k' : α} {f g : Option β → β}
    (h : k = k' → R (g (some (f m[k]?))) (f (some (g m[k]?)))) :
    MapRel R (Lib.upsert (Lib.upsert m k f) k' g) (Lib.upsert (Lib.upsert m k' g) k f) := by
  intro a
  by_cases hkk : k = k'
  · subst hkk
    rw [getElem?_upsert, getElem?_upsert (Lib.upsert m k g), getElem?_upsert m, getElem?_upsert m,
      getElem?_upsert m, getElem?_upsert m, if_pos rfl, if_pos rfl]
    split
    · exact .some (h rfl)
    · exact MapRel.refl hrefl m a
  · have hsame : (Lib.upsert (Lib.upsert m k f) k' g)[a]? =
        (Lib.upsert (Lib.upsert m k' g) k f)[a]? := by
      simp only [getElem?_upsert, if_neg hkk, if_neg (Ne.symm hkk)]
      by_cases ha : a = k
      · rw [if_pos ha, if_pos ha, if_neg fun h' => hkk (ha.symm.trans h')]
      · rw [if_neg ha, if_neg ha]
    rw [hsame]
    exact MapRel.refl hrefl _ a

end Maps

/-- **A loop whose steps can be swapped runs over a list in any order.** -/
theorem foldl_perm {σ α : Type} {R : σ → σ → Prop} {f : σ → α → σ} (hrefl : ∀ s, R s s)
    (htrans : ∀ s t u, R s t → R t u → R s u) (hcongr : ∀ s t a, R s t → R (f s a) (f t a))
    (hswap : ∀ s a b, R (f (f s a) b) (f (f s b) a)) {l l' : List α} (h : l.Perm l')
    {s t : σ} (hst : R s t) : R (l.foldl f s) (l'.foldl f t) := by
  have hfold : ∀ (l : List α) {s t : σ}, R s t → R (l.foldl f s) (l.foldl f t) := by
    intro l
    induction l with
    | nil => exact fun h => h
    | cons a l ih => exact fun h => ih (hcongr _ _ a h)
  induction h generalizing s t with
  | nil => exact hst
  | cons a _ ih => exact ih (hcongr _ _ a hst)
  | swap a b l =>
    refine hfold l (htrans _ _ _ (hswap s b a) ?_)
    exact hcongr _ _ b (hcongr _ _ a hst)
  | trans _ _ ih₁ ih₂ => exact htrans _ _ _ (ih₁ hst) (ih₂ (hrefl t))

end Panoptes.Lib
