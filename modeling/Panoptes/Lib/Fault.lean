import Mathlib

/-!
# Aborting computations

A Rust function ends in one of three ways: it returns a value, it returns an error value of its
own error type, or it aborts (`unwrap` on `None`, a failed `assert!`, an index out of bounds, an
arithmetic overflow in a build that checks for it).  Functions that can only abort are modelled in
`Except Panic`; functions that can also return an error in `Except (Fault ε)`.

A loop without a structural bound carries fuel, and running out of it is the panic `fuel`: a proof
that a call does not panic is also a proof that its loops end.

* `unwrap`, `index`, `assert` — the aborting primitives.
* `Overflow`, `addU64`, `subU64` — `u64` arithmetic, checked or wrapping as the build has it.
* `bind_eq_ok` — how a successful run of a sequence of steps decomposes.
* `Returns`, `NoPanic` — what a computation ends with, shown step by step; `Returns.foldlM` is the
  rule for loops.
* `EqUnlessOverflow` — how the run of a build that wraps compares to that of one that checks.
-/

set_option autoImplicit false

namespace Panoptes.Lib

variable {p : Prop} {α ε β σ : Type} {xs l : List α} {a b : Nat} {x : Except ε α}
  {f : α → Except ε β} {e : ε} {s : σ} {P Q : α → Prop} {E : ε → Prop}

/-- Why a computation aborts. -/
inductive Panic where
  /-- `unwrap` on `None`. -/
  | unwrapNone
  /-- `expect(msg)` on `None`. -/
  | expect (msg : String)
  /-- `panic!(msg)`. -/
  | explicit (msg : String)
  /-- A failed `assert!`. -/
  | assertion
  /-- An index out of bounds. -/
  | indexOutOfBounds
  /-- An arithmetic overflow in a build with overflow checks. -/
  | overflow
  /-- A loop of the model did not end within its fuel. -/
  | fuel
  deriving DecidableEq, Repr

/-- An abort, or an error of the function's own error type. -/
inductive Fault (ε : Type) where
  | panic (p : Panic)
  | error (e : ε)
  deriving DecidableEq, Repr

/-- The result of a function that returns `Result<α, ε>` or aborts. -/
abbrev Res (ε α : Type) := Except (Fault ε) α

/-- Run a computation that can only abort inside one that can also fail. -/
def liftPanic {ε α : Type} : Except Panic α → Res ε α
  | .ok a => .ok a
  | .error p => .error (.panic p)

/-- `map_err` on the error type; an abort stays an abort. -/
def mapErr {ε ε' α : Type} (f : ε → ε') : Res ε α → Res ε' α
  | .ok a => .ok a
  | .error (.panic p) => .error (.panic p)
  | .error (.error e) => .error (.error (f e))

def unwrap {α : Type} : Option α → Except Panic α
  | some a => .ok a
  | none => .error .unwrapNone

def expect {α : Type} (msg : String) : Option α → Except Panic α
  | some a => .ok a
  | none => .error (.expect msg)

def index {α : Type} (xs : List α) (i : Nat) : Except Panic α :=
  match xs[i]? with
  | some a => .ok a
  | none => .error .indexOutOfBounds

def assert (p : Prop) [Decidable p] : Except Panic Unit :=
  if p then .ok () else .error .assertion

@[simp] theorem unwrap_some (a : α) : unwrap (some a) = .ok a := rfl

@[simp] theorem expect_some (msg : String) (a : α) : expect msg (some a) = .ok a := rfl

@[simp] theorem liftPanic_ok (a : α) : liftPanic (ε := ε) (.ok a) = .ok a := rfl

theorem liftPanic_eq_ok {x : Except Panic α} {a : α} (h : liftPanic (ε := ε) x = .ok a) :
    x = .ok a := by
  cases x with
  | error p => cases h
  | ok b =>
    cases h
    rfl

theorem index_eq_ok {i : Nat} (h : i < xs.length) : index xs i = .ok xs[i] := by
  unfold index
  rw [List.getElem?_eq_getElem h]

theorem assert_pos [Decidable p] (h : p) : assert p = .ok () := if_pos h

theorem of_assert [Decidable p] (h : assert p = .ok ()) : p := by
  unfold assert at h
  split at h
  · assumption
  · cases h

/-! ## Fixed-width arithmetic -/

/-- The number of values of a `u64`. -/
def U64 : Nat := 2 ^ 64

/-- What a build does on an arithmetic overflow: test builds check, release builds wrap. -/
inductive Overflow where
  | checked
  | wrapping
  deriving DecidableEq, Repr

variable (o : Overflow)

/-- `a + b` on `u64`. -/
def addU64 (a b : Nat) : Except Panic Nat :=
  if a + b < U64 then .ok (a + b)
  else match o with
    | .checked => .error .overflow
    | .wrapping => .ok ((a + b) % U64)

/-- `a - b` on `u64`. -/
def subU64 (a b : Nat) : Except Panic Nat :=
  if b ≤ a then .ok (a - b)
  else match o with
    | .checked => .error .overflow
    | .wrapping => .ok ((a + (U64 - b % U64)) % U64)

/-- `a * b` on `u64`. -/
def mulU64 (a b : Nat) : Except Panic Nat :=
  if a * b < U64 then .ok (a * b)
  else match o with
    | .checked => .error .overflow
    | .wrapping => .ok (a * b % U64)

/-- A sum of `u64`s, in any order. -/
def sumU64 (sum : Nat) : Except Panic Nat :=
  if sum < U64 then .ok sum
  else match o with
    | .checked => .error .overflow
    | .wrapping => .ok (sum % U64)

/-- `a + b` on `u64` in a release build. -/
def wrapAdd (a b : Nat) : Nat := (a + b) % U64

/-- `a - b` on `u64` in a release build. -/
def wrapSub (a b : Nat) : Nat := (a + (U64 - b % U64)) % U64

/-- `a * b` on `u64` in a release build. -/
def wrapMul (a b : Nat) : Nat := a * b % U64

theorem addU64_ok (h : a + b < U64) : addU64 o a b = .ok (a + b) :=
  if_pos h

theorem addU64_eq_ok {o : Overflow} {c : Nat} (h : addU64 o a b = .ok c)
    (hfit : o = .checked ∨ a + b < U64) : c = a + b := by
  unfold addU64 at h
  split at h
  · cases h
    rfl
  · rename_i hover
    cases hfit with
    | inl ho =>
      rw [ho] at h
      cases h
    | inr hlt => exact absurd hlt hover

theorem addU64_wrapping : addU64 .wrapping a b = .ok ((a + b) % U64) := by
  unfold addU64
  split
  · rename_i h
    rw [Nat.mod_eq_of_lt h]
  · rfl

theorem subU64_ok (h : b ≤ a) : subU64 o a b = .ok (a - b) :=
  if_pos h

theorem sumU64_ok {sum : Nat} (h : sum < U64) : sumU64 o sum = .ok sum := if_pos h

theorem mulU64_ok (h : a * b < U64) : mulU64 o a b = .ok (a * b) := if_pos h

theorem wrapAdd_eq (h : a + b < U64) : wrapAdd a b = a + b := Nat.mod_eq_of_lt h

theorem wrapSub_eq (h : b ≤ a) (ha : a < U64) : wrapSub a b = a - b := by
  unfold wrapSub
  rw [Nat.mod_eq_of_lt (by omega : b < U64)]
  by_cases hb : b = 0
  · simp [hb, Nat.mod_eq_of_lt ha]
  · rw [show a + (U64 - b) = (a - b) + U64 by omega, Nat.add_mod_right, Nat.mod_eq_of_lt (by omega)]

/-! ## Sequences of steps -/

/-- The panic of a call, if it has one. -/
def panicOf {α : Type} : Except Panic α → Option Panic
  | .ok _ => none
  | .error e => some e

theorem eq_error_of_panicOf {x : Except Panic α} {e : Panic} (h : panicOf x = some e) :
    x = .error e := by
  cases x with
  | ok a => cases h
  | error e' => exact congrArg Except.error (Option.some.inj h)

theorem exists_eq_ok_of_panicOf {x : Except Panic α} (h : panicOf x = none) : ∃ a, x = .ok a := by
  cases x with
  | ok a => exact ⟨a, rfl⟩
  | error e => cases h

theorem exists_eq_ok_of_isOk (h : x.isOk = true) : ∃ a, x = .ok a := by
  cases x with
  | ok a => exact ⟨a, rfl⟩
  | error e => cases h

theorem ok_bind (a : α) (f : α → Except ε β) : ((.ok a : Except ε α) >>= f) = f a := rfl

theorem bind_eq_ok {b : β} : x >>= f = .ok b ↔ ∃ a, x = .ok a ∧ f a = .ok b := by
  refine ⟨fun h => ?_, fun ⟨a, hx, hf⟩ => by rw [hx]; exact hf⟩
  cases x with
  | error e => cases h
  | ok a => exact ⟨a, rfl, h⟩

theorem ite_error_eq_ok [Decidable p] {a : α} :
    (if p then .error e else x) = .ok a ↔ ¬ p ∧ x = .ok a := by
  by_cases h : p <;> simp [h]

theorem ite_eq_ok [Decidable p] {a : α} : (if p then x else .error e) = .ok a ↔ p ∧ x = .ok a := by
  by_cases h : p <;> simp [h]

theorem mapM_eq_ok {ys : List β} (h : xs.mapM f = .ok ys) :
    List.Forall₂ (fun x y => f x = .ok y) xs ys := by
  induction xs generalizing ys with
  | nil =>
    cases h
    exact .nil
  | cons x xs ih =>
    rw [List.mapM_cons] at h
    obtain ⟨y, hy, h⟩ := bind_eq_ok.mp h
    obtain ⟨ys', hys, h⟩ := bind_eq_ok.mp h
    cases h
    exact .cons hy (ih hys)

/-! ## Postconditions -/

/-- `x` ends with a value that satisfies `Q` or with an error that satisfies `E`. -/
def Returns {ε α : Type} (x : Except ε α) (Q : α → Prop) (E : ε → Prop) : Prop :=
  match x with
  | .ok a => Q a
  | .error e => E e

theorem Returns.bind {Q : β → Prop} (hx : Returns x P E) (hf : ∀ a, P a → Returns (f a) Q E) :
    Returns (x >>= f) Q E := by
  cases x with
  | error e => exact hx
  | ok a => exact hf a hx

theorem Returns.imp (hx : Returns x P E) (h : ∀ a, P a → Q a) : Returns x Q E := by
  cases x with
  | error e => exact hx
  | ok a => exact h a hx

theorem Returns.imp_error {E' : ε → Prop} (hx : Returns x Q E)
    (h : ∀ e, E e → E' e) : Returns x Q E' := by
  cases x with
  | error e => exact h e hx
  | ok a => exact hx

theorem Returns.of_ok {a : α} (h : Returns x Q E) (hx : x = .ok a) : Q a := by
  rw [hx] at h
  exact h

theorem Returns.exists_ok (h : Returns x Q E) (hE : ∀ e, ¬ E e) : ∃ a, x = .ok a ∧ Q a := by
  cases x with
  | error e => exact absurd h (hE e)
  | ok a => exact ⟨a, rfl, h⟩

/-- An overflow, in a build that checks for it. -/
abbrev Overflow.Aborts (e : Panic) : Prop := e = .overflow ∧ o = .checked

/-- One that happens only where `p` does not hold. -/
abbrev Overflow.AbortsUnless (p : Prop) (e : Panic) : Prop :=
  e = .overflow ∧ o = .checked ∧ ¬ p

theorem addU64_returns (a b : Nat) :
    Returns (addU64 o a b) (fun c => a + b < U64 → c = a + b) (o.AbortsUnless (a + b < U64)) := by
  unfold addU64
  by_cases h : a + b < U64
  · rw [if_pos h]
    exact fun _ => rfl
  · rw [if_neg h]
    cases o with
    | checked => exact ⟨rfl, rfl, h⟩
    | wrapping => exact fun h' => absurd h' h

theorem subU64_returns (a b : Nat) :
    Returns (subU64 o a b) (fun c => b ≤ a → c = a - b) (o.AbortsUnless (b ≤ a)) := by
  unfold subU64
  by_cases h : b ≤ a
  · rw [if_pos h]
    exact fun _ => rfl
  · rw [if_neg h]
    cases o with
    | checked => exact ⟨rfl, rfl, h⟩
    | wrapping => exact fun h' => absurd h' h

theorem exists_mapM_eq_ok (h : ∀ a ∈ l, ∃ b, f a = .ok b) : ∃ bs, l.mapM f = .ok bs := by
  induction l with
  | nil => exact ⟨[], rfl⟩
  | cons a l ih =>
    obtain ⟨b, hb⟩ := h a (List.mem_cons_self ..)
    obtain ⟨bs, hbs⟩ := ih fun a' ha' => h a' (List.mem_cons_of_mem a ha')
    refine ⟨b :: bs, ?_⟩
    rw [List.mapM_cons, hb, hbs]
    rfl

theorem mapM_eq_ok_map {g : α → β} (h : ∀ a ∈ l, f a = .ok (g a)) : l.mapM f = .ok (l.map g) := by
  induction l with
  | nil => rfl
  | cons a l ih =>
    rw [List.mapM_cons, h a List.mem_cons_self, ih fun a' ha' => h a' (List.mem_cons_of_mem a ha')]
    rfl

/-- What holds of all elements of a list and of one more. -/
theorem forall_mem_concat {a : α} {p : α → Prop} :
    (∀ x ∈ l ++ [a], p x) ↔ (∀ x ∈ l, p x) ∧ p a := by
  rw [List.forall_mem_append, List.forall_mem_singleton]

/-- The rule for a loop over a list: the invariant speaks of the elements that are done. -/
theorem Returns.foldlM {ε α : Type} {f : σ → α → Except ε σ} {P : List α → σ → Prop}
    {E : ε → Prop} (l : List α)
    (done : List α) (hs : P done s)
    (hstep : ∀ pre a post s, done ++ l = pre ++ a :: post → P pre s →
      Returns (f s a) (P (pre ++ [a])) E) :
    Returns (l.foldlM f s) (P (done ++ l)) E := by
  induction l generalizing done s with
  | nil =>
    rw [List.append_nil]
    exact hs
  | cons a l ih =>
    refine (hstep done a l s rfl hs).bind fun s' hs' => ?_
    have hsplit : done ++ a :: l = (done ++ [a]) ++ l := by
      rw [List.append_assoc, List.singleton_append]
    rw [hsplit]
    exact ih (done ++ [a]) hs' fun pre b post s h => hstep pre b post s (hsplit.trans h)

/-- The rule for a loop whose invariant does not speak of the elements that are done. -/
theorem Returns.foldlM_inv {f : σ → α → Except ε σ} {P : σ → Prop} (hs : P s)
    (hstep : ∀ a ∈ l, ∀ s, P s → Returns (f s a) P E) : Returns (l.foldlM f s) P E := by
  induction l generalizing s with
  | nil => exact hs
  | cons a l ih =>
    refine (hstep a List.mem_cons_self s hs).bind fun s' hs' => ?_
    exact ih hs' fun a' ha' => hstep a' (List.mem_cons_of_mem a ha')

/-- The computation returns, with a value or with an error of its own. -/
def NoPanic {ε α : Type} (x : Res ε α) : Prop := ∀ p, x ≠ .error (.panic p)

theorem noPanic_iff {x : Res ε α} :
    NoPanic x ↔ Returns x (fun _ => True) fun fault => ∀ p, fault ≠ .panic p := by
  cases x with
  | error fault =>
    refine ⟨fun h p hp => h p (by rw [hp]), fun h p hp => h p ?_⟩
    cases hp
    rfl
  | ok a => exact ⟨fun _ => trivial, fun _ p hp => by cases hp⟩

namespace NoPanic

variable {ε' : Type}

theorem ok (a : α) : NoPanic (ε := ε) (.ok a) := fun _ h => by cases h

theorem error (e : ε) : NoPanic (α := α) (.error (.error e)) := fun _ h => by cases h

theorem bind {x : Res ε α} {f : α → Res ε β} (hx : NoPanic x)
    (hf : ∀ a, NoPanic (f a)) : NoPanic (x >>= f) :=
  noPanic_iff.mpr ((noPanic_iff.mp hx).bind fun a _ => noPanic_iff.mp (hf a))

theorem mapErr {x : Res ε α} (hx : NoPanic x) (f : ε → ε') : NoPanic (mapErr f x) := by
  intro p h
  cases x with
  | error fault =>
    cases fault with
    | panic q => exact hx q rfl
    | error e => cases h
  | ok a => cases h

end NoPanic

/-! ## Two builds -/

/-- `x` ends as `y`, its run in the build that checks for overflows, unless that one finds an
overflow. -/
def EqUnlessOverflow {ε α : Type} (x y : Res ε α) : Prop := y = .error (.panic .overflow) ∨ x = y

namespace EqUnlessOverflow

variable {x y : Res ε α} {f g : α → Res ε β}

theorem refl (x : Res ε α) : EqUnlessOverflow x x := .inr rfl

theorem bind (hx : EqUnlessOverflow x y)
    (hf : ∀ a, EqUnlessOverflow (f a) (g a)) : EqUnlessOverflow (x >>= f) (y >>= g) := by
  rcases hx with rfl | rfl
  · exact .inl rfl
  · cases x with
    | error fault => exact .refl _
    | ok a => exact hf a

theorem after (hf : ∀ a, EqUnlessOverflow (f a) (g a)) :
    EqUnlessOverflow (x >>= f) (x >>= g) := (refl x).bind hf

theorem addU64 (a b : Nat) :
    EqUnlessOverflow (ε := ε) (liftPanic (addU64 o a b)) (liftPanic (Lib.addU64 .checked a b)) := by
  by_cases h : a + b < U64
  · exact .inr (by rw [addU64_ok o h, addU64_ok .checked h])
  · exact .inl (congrArg liftPanic (if_neg h))

theorem subU64 (a b : Nat) :
    EqUnlessOverflow (ε := ε) (liftPanic (subU64 o a b)) (liftPanic (Lib.subU64 .checked a b)) := by
  by_cases h : b ≤ a
  · exact .inr (by rw [subU64_ok o h, subU64_ok .checked h])
  · exact .inl (congrArg liftPanic (if_neg h))

theorem eq_checked (h : EqUnlessOverflow x y) (hy : y ≠ .error (.panic .overflow)) : y = x :=
  (h.resolve_left hy).symm

end EqUnlessOverflow

end Panoptes.Lib
