import Mathlib.Data.List.Basic

/-!
# Runs of calls

A component with a state, calls that may fail, and a rule that says which calls its users make in a
state.

* `Reachable` — the states that runs reach whose calls obey the rule.
* `Reachable.invariant` — what the first state has and every call keeps, every state reached has.
* `runCalls`, `exists_reachable` — a list of calls, run, reaches a state.
-/

set_option autoImplicit false

namespace Panoptes.Lib

section

variable {σ κ ε : Type} (run : σ → κ → Except ε σ) (rule : σ → κ → Prop)

/-- The states that runs from `start` reach whose calls obey the rule. -/
inductive Reachable (start : σ) : σ → Prop where
  | start : Reachable start start
  | call {s s' : σ} {c : κ} (h : Reachable start s) (hrule : rule s c) (hrun : run s c = .ok s') :
      Reachable start s'

/-- Run calls as long as they obey the rule and return. -/
def runCalls [∀ s c, Decidable (rule s c)] : σ → List κ → Option σ
  | s, [] => some s
  | s, c :: calls =>
    if rule s c then
      match run s c with
      | .ok s' => runCalls s' calls
      | .error _ => none
    else none

end

namespace Reachable

variable {σ κ ε : Type} {run : σ → κ → Except ε σ} {rule rule' : σ → κ → Prop} {start s s' : σ}

/-- What the first state has and every call of the rule keeps holds in every state reached. -/
theorem invariant {P : σ → Prop} (hstart : P start)
    (hcall : ∀ s c s', P s → rule s c → run s c = .ok s' → P s') (h : Reachable run rule start s) :
    P s := by
  induction h with
  | start => exact hstart
  | call _ hrule hrun ih => exact hcall _ _ _ ih hrule hrun

theorem mono (hle : ∀ s c, rule s c → rule' s c) (h : Reachable run rule start s) :
    Reachable run rule' start s := by
  induction h with
  | start => exact .start
  | call _ hrule hrun ih => exact .call ih (hle _ _ hrule) hrun

theorem runCalls [∀ s c, Decidable (rule s c)] {calls : List κ} (h : Reachable run rule start s)
    (hrun : runCalls run rule s calls = some s') : Reachable run rule start s' := by
  induction calls generalizing s with
  | nil =>
    cases hrun
    exact h
  | cons c calls ih =>
    unfold Lib.runCalls at hrun
    split at hrun
    · rename_i hrule
      split at hrun
      · rename_i s₁ hcall
        exact ih (h.call hrule hcall) hrun
      · cases hrun
    · cases hrun

end Reachable

variable {σ κ ε : Type} {run : σ → κ → Except ε σ} {rule : σ → κ → Prop} {start : σ}

/-- A property of the state that calls lead to is one of a state that is reached. -/
theorem exists_reachable [∀ s c, Decidable (rule s c)] (calls : List κ) {P : σ → Prop}
    [DecidablePred P] (h : (runCalls run rule start calls).any (fun s => decide (P s)) = true) :
    ∃ s, Reachable run rule start s ∧ P s := by
  cases hrun : runCalls run rule start calls with
  | none =>
    rw [hrun] at h
    cases h
  | some s =>
    rw [hrun] at h
    exact ⟨s, Reachable.start.runCalls hrun, of_decide_eq_true h⟩

theorem runCalls_eq_some [∀ s c, Decidable (rule s c)] {calls : List κ}
    (h : (runCalls run rule start calls).isSome = true) :
    runCalls run rule start calls = some ((runCalls run rule start calls).getD start) := by
  obtain ⟨s, hs⟩ := Option.isSome_iff_exists.mp h
  rw [hs, Option.getD_some]

end Panoptes.Lib
