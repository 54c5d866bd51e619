import Panoptes.Lib.Fault

/-!
# Binary64 arithmetic

The `f64` operations a program needs that mixes them with integers: conversion from an integer,
product, quotient, difference, comparison, and the conversion to `u64` by `as`.  A finite value is
the rational number it stands for, and every operation rounds its exact result to nearest, ties to
even.  The two zeros are one value: they differ only as divisors, and the quotients modelled have a
divisor that is not zero.

* `F64.round` — the nearest binary64 value of a rational, `F64.posInf` or `F64.negInf` beyond the
  range.
* `F64.toU64` — `x as u64`: truncation, saturating at both ends, 0 for a NaN.
-/

set_option autoImplicit false

namespace Panoptes.Lib

/-- The values of an `f64`. -/
inductive F64 where
  | finite (q : ℚ)
  | posInf
  | negInf
  | nan
  deriving DecidableEq, Repr

namespace F64

/-- `2 ^ k` as a rational. -/
def pow2 : ℤ → ℚ
  | .ofNat n => mkRat (2 ^ n) 1
  | .negSucc n => mkRat 1 (2 ^ (n + 1))

/-- The nearest integer of a rational that is not negative, ties to even. -/
def roundHalfEven (x : ℚ) : ℤ :=
  let below := x.floor
  let rest := x - below
  if rest < mkRat 1 2 then below
  else if mkRat 1 2 < rest then below + 1
  else if below % 2 = 0 then below
  else below + 1

/-- The exponent `e` with `2 ^ e ≤ q < 2 ^ (e + 1)`, for a positive rational. -/
def exponent (q : ℚ) : ℤ :=
  let e : ℤ := q.num.natAbs.log2 - q.den.log2
  if q < pow2 e then e - 1 else e

/-- The unit in the last place: 52 bits below the leading one, and no less than that of the
subnormal numbers. -/
def ulp (q : ℚ) : ℚ := pow2 (max (exponent q) (-1022) - 52)

/-- Round a rational to the nearest value. -/
def round (q : ℚ) : F64 :=
  if q = 0 then .finite 0
  else
    let magnitude := roundHalfEven (|q| / ulp |q|) * ulp |q|
    if magnitude < pow2 1024 then .finite (if q < 0 then -magnitude else magnitude)
    else if q < 0 then .negInf
    else .posInf

/-- `n as f64`. -/
def ofNat (n : Nat) : F64 := round n

/-- The value with the given bits: a sign, 11 bits of exponent and 52 of fraction. -/
def ofBits (bits : Nat) : F64 :=
  let fraction : Nat := bits % 2 ^ 52
  let e : Nat := bits / 2 ^ 52 % 2 ^ 11
  let negative := bits / 2 ^ 63 % 2 = 1
  if e = 2047 then
    if fraction ≠ 0 then .nan else if negative then .negInf else .posInf
  else
    let magnitude : ℚ :=
      if e = 0 then fraction * pow2 (-1074) else (2 ^ 52 + fraction) * pow2 (e - 1075)
    .finite (if negative then -magnitude else magnitude)

example : ofBits 0x4000000000000000 = .finite 2 := by decide +kernel

/-- The sign of a value that is not a NaN. -/
def isNeg : F64 → Bool
  | finite q => decide (q < 0)
  | posInf => false
  | negInf => true
  | nan => false

/-- An infinity with the sign of a product or quotient of `a` and `b`. -/
def signedInf (a b : F64) : F64 := if a.isNeg = b.isNeg then .posInf else .negInf

def mul (a b : F64) : F64 :=
  match a, b with
  | .nan, _ | _, .nan => .nan
  | .finite x, .finite y => round (x * y)
  | .finite x, y => if x = 0 then .nan else signedInf (.finite x) y
  | x, .finite y => if y = 0 then .nan else signedInf x (.finite y)
  | x, y => signedInf x y

def div (a b : F64) : F64 :=
  match a, b with
  | .nan, _ | _, .nan => .nan
  | .finite x, .finite y =>
    if y = 0 then if x = 0 then .nan else signedInf (.finite x) (.finite y)
    else round (x / y)
  | .finite _, _ => .finite 0
  | x, .finite y => signedInf x (.finite y)
  | _, _ => .nan

def sub (a b : F64) : F64 :=
  match a, b with
  | .nan, _ | _, .nan => .nan
  | .finite x, .finite y => round (x - y)
  | .finite _, .posInf => .negInf
  | .finite _, .negInf => .posInf
  | .posInf, .posInf | .negInf, .negInf => .nan
  | x, _ => x

def abs : F64 → F64
  | .finite x => .finite |x|
  | .posInf | .negInf => .posInf
  | .nan => .nan

/-- `a < b`; a NaN compares false. -/
def lt (a b : F64) : Bool :=
  match a, b with
  | .nan, _ | _, .nan => false
  | .finite x, .finite y => decide (x < y)
  | .finite _, .posInf | .negInf, .finite _ | .negInf, .posInf => true
  | _, _ => false

/-- `f64::EPSILON`. -/
def EPSILON : F64 := .finite (pow2 (-52))

/-- `a as u64`. -/
def toU64 : F64 → Nat
  | .finite x => min x.floor.toNat (U64 - 1)
  | .posInf => U64 - 1
  | .negInf | .nan => 0

-- The nearest value to 1/10 is above it, and ten times that value rounds to 1.
example : mul (round (1 / 10)) (ofNat 10) = ofNat 1 := by decide +kernel

end F64

end Panoptes.Lib
