import Panoptes.Lib.Fault

/-!
# Iteration in an order that is given

`OrderedIterator` of `runtime/src/transaction_utils.rs`: the elements of a list at the positions of
an order, or in their own order.  The results of a step over the elements are in that order too, and
the next step pairs the two again, by position.

* `zipOrdered`, `zipOrdered_eq` — such a step.
* `mapM_zipIdx_index`, `foldlM_zipIdx_index` — a step that looks results up by their index.
* `IteratesAs`, `IsPermutation` — what an order visits, and that it is all elements.
-/

set_option autoImplicit false

namespace Panoptes.Runtime

open Lib List

/-- `OrderedIterator::new(vec, order)`, run to its end: the positions and the elements. -/
def orderedIterator {α : Type} (vec : List α) : Option (List Nat) → Except Panic (List (Nat × α))
  | none => .ok (vec.zipIdx.map Prod.swap)
  | some order => do
    assert (order.length = vec.length)
    order.mapM fun i => do
      let a ← index vec i
      .ok (i, a)

/-- The positions of an order are those of the list, each as often as it likes. -/
def IsOrder (n : Nat) : Option (List Nat) → Prop
  | none => True
  | some order => order.length = n ∧ ∀ i ∈ order, i < n

variable {α β γ : Type} {vec xs : List α} {order : Option (List Nat)} {items : List (Nat × α)}
  {ys : List β}

theorem orderedIterator_returns (h : IsOrder vec.length order) :
    ∃ items, orderedIterator vec order = .ok items := by
  cases order with
  | none => exact ⟨_, rfl⟩
  | some order =>
    obtain ⟨hlen, hlt⟩ := h
    have hstep : ∀ i ∈ order, ∃ b, (do
        let a ← index vec i
        (.ok (i, a) : Except Panic (Nat × α))) = .ok b := by
      intro i hi
      rw [index_eq_ok (hlt i hi)]
      exact ⟨_, rfl⟩
    obtain ⟨items, hitems⟩ := exists_mapM_eq_ok hstep
    exact ⟨items, by rw [orderedIterator, assert_pos hlen]; exact hitems⟩

/-- `OrderedIterator::new(vec, order).zip(results).map(f)`. -/
def zipOrdered {α β γ : Type} (vec : List α) (order : Option (List Nat)) (results : List β)
    (f : α → β → γ) : Except Panic (List γ) := do
  let items ← orderedIterator vec order
  .ok (List.zipWith (fun item result => f item.2 result) items results)

theorem zipOrdered_eq (h : orderedIterator vec order = .ok items) (results : List β)
    (f : α → β → γ) :
    zipOrdered vec order results f = .ok (List.zipWith f (items.map Prod.snd) results) := by
  rw [zipOrdered, h, ok_bind, zipWith_map_left]

theorem zipWith_map_self (f : α → β → γ) (g : α → β) (xs : List α) :
    List.zipWith f xs (xs.map g) = xs.map fun x => f x (g x) := by
  induction xs with
  | nil => rfl
  | cons x xs ih => simp [ih]

theorem zip_map_self (g : α → β) (xs : List α) : xs.zip (xs.map g) = xs.map fun x => (x, g x) :=
  zipWith_map_self Prod.mk g xs

theorem map_zip_self (g : α → β) (xs : List α) : (xs.map g).zip xs = xs.map fun x => (g x, x) := by
  rw [← zip_swap, zip_map_self, map_map]
  rfl

/-- An iteration visits the elements of a list in the order of another. -/
def IteratesAs {α : Type} (vec : List α) (order : Option (List Nat)) (ordered : List α) : Prop :=
  ∃ items, orderedIterator vec order = .ok items ∧ items.map Prod.snd = ordered

theorem zipOrdered_map {order : Option (List Nat)} {ordered : List α}
    (h : IteratesAs vec order ordered) (g : α → β) (f : α → β → γ) :
    zipOrdered vec order (ordered.map g) f = .ok (ordered.map fun a => f a (g a)) := by
  obtain ⟨items, hitems, rfl⟩ := h
  rw [zipOrdered_eq hitems, zipWith_map_self]

/-! ## Results by index -/

section Indexed

variable {rs : List β}

/-- Looking results up by position pairs each element with its own. -/
theorem zipIdx_map_index {xs : List α} (hlen : xs.length = rs.length) :
    xs.zipIdx.map (fun p => (p.1, index rs p.2)) = (xs.zip rs).map fun p => (p.1, .ok p.2) := by
  refine ext_getElem (by simp [hlen]) fun i h₁ h₂ => ?_
  have hi : i < rs.length := by simpa [hlen] using h₁
  simp [index, hi]

/-- A step that looks the result of each element up. -/
theorem mapM_zipIdx_index (f : α → β → Except Panic γ) {xs : List α}
    (hlen : xs.length = rs.length) :
    (xs.zipIdx.mapM fun p => index rs p.2 >>= f p.1) = (xs.zip rs).mapM fun p => f p.1 p.2 := by
  have h := congrArg (mapM fun q => q.2 >>= f q.1) (zipIdx_map_index hlen)
  rwa [mapM_map, mapM_map] at h

/-- A loop that looks the result of each element up. -/
theorem foldlM_zipIdx_index (f : γ → α → β → γ) {xs : List α}
    (hlen : xs.length = rs.length) (c : γ) :
    (xs.zipIdx.foldlM (fun c p => index rs p.2 >>= fun r => .ok (f c p.1 r)) c)
      = .ok ((xs.zip rs).foldl (fun c p => f c p.1 p.2) c) := by
  have h :=
    congrArg (foldlM (fun c q => q.2 >>= fun r => .ok (f c q.1 r)) c) (zipIdx_map_index hlen)
  rw [foldlM_map, foldlM_map] at h
  exact h.trans (foldlM_pure ..)

end Indexed

/-! ## Permutations -/

def positions (n : Nat) (order : Option (List Nat)) : List Nat := order.getD (List.range n)

/-- Each of `n` elements is visited once. -/
def IsPermutation (n : Nat) (order : Option (List Nat)) : Prop :=
  (positions n order).Perm (List.range n)

instance (n : Nat) (order : Option (List Nat)) : Decidable (IsPermutation n order) :=
  inferInstanceAs (Decidable (List.Perm _ _))

theorem orderedIterator_some {order : List Nat} (h : orderedIterator vec (some order) = .ok items) :
    List.Forall₂ (fun i item => item.1 = i ∧ vec[i]? = some item.2) order items := by
  obtain ⟨-, -, h⟩ := bind_eq_ok.mp h
  refine (mapM_eq_ok h).imp fun i item hitem => ?_
  obtain ⟨a, ha, hitem⟩ := bind_eq_ok.mp hitem
  cases hitem
  refine ⟨rfl, ?_⟩
  unfold index at ha
  split at ha
  · rename_i a' hget
    cases ha
    exact hget
  · cases ha

theorem orderedIterator_positions {order : List Nat}
    (h : orderedIterator vec (some order) = .ok items) : items.map Prod.fst = order := by
  have hall := orderedIterator_some h
  clear h
  induction hall with
  | nil => rfl
  | cons hitem _ ih => rw [map_cons, hitem.1, ih]

theorem mem_orderedIterator {order : List Nat} (h : orderedIterator vec (some order) = .ok items)
    {item : Nat × α} : item ∈ items ↔ item.1 ∈ order ∧ vec[item.1]? = some item.2 := by
  have hall := orderedIterator_some h
  clear h
  induction hall with
  | nil => simp
  | @cons i it order items hit _ ih =>
    rw [mem_cons, mem_cons]
    constructor
    · rintro (rfl | hmem)
      · exact ⟨.inl hit.1, hit.1 ▸ hit.2⟩
      · exact ⟨.inr (ih.mp hmem).1, (ih.mp hmem).2⟩
    · rintro ⟨heq | hmem, hget⟩
      · refine .inl (Prod.ext (heq.trans hit.1.symm) ?_)
        rw [heq, hit.2] at hget
        exact (Option.some.inj hget).symm
      · exact .inr (ih.mpr ⟨hmem, hget⟩)

/-- **In the order of a permutation**, the iterator has each element, next to its position. -/
theorem orderedIterator_of_isPermutation (h : IsPermutation vec.length order) :
    ∃ items, orderedIterator vec order = .ok items ∧
      items.map Prod.fst = positions vec.length order ∧ items.Perm (vec.zipIdx.map Prod.swap) := by
  cases order with
  | none =>
    refine ⟨_, rfl, ?_, .refl _⟩
    simp [positions, Function.comp_def, range_eq_range']
  | some order =>
    have hlen : order.length = vec.length := by simpa [positions] using h.length_eq
    have hlt : ∀ i ∈ order, i < vec.length := fun i hi => mem_range.mp (h.mem_iff.mp hi)
    obtain ⟨items, hitems⟩ :=
      orderedIterator_returns (show IsOrder vec.length (some order) from ⟨hlen, hlt⟩)
    have hfst : items.map Prod.fst = order := orderedIterator_positions hitems
    refine ⟨items, hitems, hfst, ?_⟩
    have hnodup : items.Nodup := List.Nodup.of_map Prod.fst (hfst ▸ h.nodup_iff.mpr nodup_range)
    have hnodup' : (vec.zipIdx.map Prod.swap).Nodup := by
      refine List.Nodup.of_map Prod.fst ?_
      simp [Function.comp_def, nodup_range']
    refine (perm_ext_iff_of_nodup hnodup hnodup').mpr fun item => ?_
    rw [mem_orderedIterator hitems, mem_map]
    constructor
    · rintro ⟨-, hget⟩
      exact ⟨item.swap, mem_zipIdx_iff_getElem?.mpr hget, Prod.swap_swap item⟩
    · rintro ⟨p, hp, rfl⟩
      have hget := mem_zipIdx_iff_getElem?.mp hp
      refine ⟨h.mem_iff.mpr (mem_range.mpr ?_), hget⟩
      exact (List.getElem?_eq_some_iff.mp hget).1

/-! ## Loops with results -/

theorem mapM_eq_map {ε : Type} {f : α → Except ε β} {g : α → β} (h : ∀ x ∈ xs, f x = .ok (g x)) :
    xs.mapM f = .ok (xs.map g) := by
  induction xs with
  | nil => rfl
  | cons x xs ih =>
    obtain ⟨hx, hxs⟩ := forall_mem_cons.mp h
    rw [mapM_cons, hx, ih hxs]
    rfl

theorem exists_left_of_forall₂ {R : α → β → Prop} (h : List.Forall₂ R xs ys) {y : β}
    (hy : y ∈ ys) : ∃ x ∈ xs, R x y := by
  induction h with
  | nil => cases hy
  | cons hxy _ ih =>
    rcases mem_cons.mp hy with rfl | hy
    · exact ⟨_, mem_cons_self, hxy⟩
    · obtain ⟨x, hx, hR⟩ := ih hy
      exact ⟨x, mem_cons_of_mem _ hx, hR⟩

section Zips

variable {δ ε : Type}

theorem mapM_bind_ok (f : α → Except ε β) (g : α → β → γ) (xs : List α) :
    (xs.mapM fun x => f x >>= fun y => .ok (g x y)) = xs.mapM f >>= fun ys =>
      .ok (List.zipWith g xs ys) := by
  induction xs with
  | nil => rfl
  | cons x xs ih =>
    rw [mapM_cons, mapM_cons, ih]
    cases f x with
    | error => rfl
    | ok =>
      cases xs.mapM f with
      | error => rfl
      | ok => rfl

theorem zipWith_right (f : β → γ) (h : xs.length = ys.length) :
    List.zipWith (fun _ y => f y) xs ys = ys.map f := by
  induction xs generalizing ys with
  | nil =>
    cases ys with
    | nil => rfl
    | cons => cases h
  | cons x xs ih =>
    cases ys with
    | nil => cases h
    | cons => simp [ih (Nat.succ.inj h)]

theorem map_zip_map (f : γ → δ → β) (g : α → γ) {ys : List δ} :
    ((xs.map g).zip ys).map (fun p => f p.1 p.2) = List.zipWith (fun x y => f (g x) y) xs ys := by
  rw [List.zip, List.map_zipWith, List.zipWith_map_left]

theorem map_zip_zipWith (f : γ → δ → ε) (a : α → β → γ) (g : α → δ) :
    ((List.zipWith a xs ys).zip (xs.map g)).map (fun p => f p.1 p.2)
      = List.zipWith (fun x y => f (a x y) (g x)) xs ys := by
  induction xs generalizing ys with
  | nil => rfl
  | cons x xs ih =>
    cases ys with
    | nil => rfl
    | cons => simp [ih]

end Zips

end Panoptes.Runtime
