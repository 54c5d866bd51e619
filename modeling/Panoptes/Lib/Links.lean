import Mathlib.Data.List.Chain
import Mathlib.Order.Basic

/-!
# Increasing paths of numbers

The steps of an increasing path cut the numbers after its start into intervals: each number up to
the end of the path is in exactly one of them.

* `links` — the steps, as pairs.
* `exists_link`, `links_pairwise` — each number is in one interval, and no number is in two.
-/

set_option autoImplicit false

namespace Panoptes.Lib

/-- The steps of a path. -/
def links (start : Nat) : List Nat → List (Nat × Nat)
  | [] => []
  | n :: rest => (start, n) :: links n rest

variable {start : Nat} {path : List Nat}

/-- A step leads on the path from its start or a number of it to a larger one. -/
theorem mem_links (h : List.IsChain (· < ·) (start :: path)) {l : Nat × Nat}
    (hl : l ∈ links start path) : start ≤ l.1 ∧ l.1 < l.2 ∧ l.2 ∈ path := by
  induction path generalizing start with
  | nil => simp [links] at hl
  | cons n rest ih =>
    obtain ⟨hlt, hrest⟩ := List.isChain_cons_cons.mp h
    rcases List.mem_cons.mp hl with rfl | hl
    · exact ⟨le_rfl, hlt, List.mem_cons_self⟩
    · obtain ⟨hle, hstep, hmem⟩ := ih hrest hl
      exact ⟨by omega, hstep, List.mem_cons_of_mem n hmem⟩

theorem exists_link_to (start : Nat) {n : Nat} (hn : n ∈ path) :
    ∃ l ∈ links start path, l.2 = n := by
  induction path generalizing start with
  | nil => cases hn
  | cons m rest ih =>
    rcases List.mem_cons.mp hn with rfl | hn
    · exact ⟨(start, n), List.mem_cons_self, rfl⟩
    · obtain ⟨l, hl, heq⟩ := ih m hn
      exact ⟨l, List.mem_cons_of_mem _ hl, heq⟩

/-- **Each number after the start is in the interval of a step.** -/
theorem exists_link {t : Nat} (hstart : start < t) (hend : ∃ n ∈ path, t ≤ n) :
    ∃ l ∈ links start path, l.1 < t ∧ t ≤ l.2 := by
  induction path generalizing start with
  | nil =>
    obtain ⟨n, hn, -⟩ := hend
    cases hn
  | cons n rest ih =>
    by_cases hle : t ≤ n
    · exact ⟨(start, n), List.mem_cons_self, hstart, hle⟩
    · obtain ⟨m, hm, hle'⟩ := hend
      have hm : m ∈ rest := (List.mem_cons.mp hm).resolve_left (by omega)
      obtain ⟨l, hl, hspan⟩ := ih (show n < t by omega) ⟨m, hm, hle'⟩
      exact ⟨l, List.mem_cons_of_mem _ hl, hspan⟩

/-- **A later step starts where an earlier one has ended.** -/
theorem links_pairwise (h : List.IsChain (· < ·) (start :: path)) :
    (links start path).Pairwise fun l l' => l.2 ≤ l'.1 := by
  induction path generalizing start with
  | nil => exact List.Pairwise.nil
  | cons n rest ih =>
    obtain ⟨-, hrest⟩ := List.isChain_cons_cons.mp h
    exact List.pairwise_cons.mpr ⟨fun l hl => (mem_links hrest hl).1, ih hrest⟩

end Panoptes.Lib
