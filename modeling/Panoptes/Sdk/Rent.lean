import Panoptes.Lib.Float64
import Panoptes.Sdk.Clock

/-!
# Rent

`sdk/program/src/rent.rs`.  The products of sizes and rates wrap, as a release build has them.
-/

set_option autoImplicit false

namespace Panoptes.Sdk

open Lib

def ACCOUNT_STORAGE_OVERHEAD : Nat := 128

structure Rent where
  lamportsPerByteYear : Nat
  exemptionThreshold : F64
  burnPercent : Nat

namespace Rent

section

variable (r : Rent) (balance dataLen : Nat)

/-- `Rent::default()`: 3480 lamports for a byte and year, exempt with the rent of two years. -/
def default : Rent where
  lamportsPerByteYear := 1000000000 / 100 * 365 / (1024 * 1024)
  exemptionThreshold := .finite 2
  burnPercent := 100

def minimumBalance : Nat :=
  ((F64.ofNat (wrapMul (wrapAdd ACCOUNT_STORAGE_OVERHEAD dataLen) r.lamportsPerByteYear)).mul
    r.exemptionThreshold).toU64

def isExempt : Bool := decide (r.minimumBalance dataLen ≤ balance)

/-- `due`: the rent due, and whether the account is exempt. -/
def due (yearsElapsed : F64) : Nat × Bool :=
  if r.isExempt balance dataLen then (0, true)
  else
    (((F64.ofNat (wrapMul r.lamportsPerByteYear (wrapAdd dataLen ACCOUNT_STORAGE_OVERHEAD))).mul
      yearsElapsed).toU64, false)

end

example : default.minimumBalance 200 = 2282880 := by decide +kernel

end Rent

end Panoptes.Sdk
