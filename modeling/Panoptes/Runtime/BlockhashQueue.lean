import Panoptes.Lib.SortedMap
import Panoptes.Sdk.Clock

/-!
# The queue of recent blockhashes

`runtime/src/blockhash_queue.rs`.  The timestamps of the hashes are not part of this; of a fee
calculator there are the lamports for each signature.
-/

set_option autoImplicit false

namespace Panoptes.Runtime

open Lib Sdk
open Std (ExtTreeMap)

structure HashAge where
  lamportsPerSignature : Nat
  hashHeight : Nat
  deriving DecidableEq, Repr

structure BlockhashQueue where
  /-- Updated whenever a hash is registered. -/
  hashHeight : Nat
  lastHash : Option Hash
  ages : ExtTreeMap Hash HashAge
  /-- Hashes that are older are dropped. -/
  maxAge : Nat

namespace BlockhashQueue

def new (maxAge : Nat) : BlockhashQueue := ⟨0, none, ∅, maxAge⟩

variable (q : BlockhashQueue)

section

variable (hash : Hash) (lamportsPerSignature maxAge : Nat)

def getFeeCalculator : Option Nat := (q.ages[hash]?).map HashAge.lamportsPerSignature

def checkAge (hashHeight maxAge : Nat) (age : HashAge) : Bool :=
  decide (wrapSub hashHeight age.hashHeight ≤ maxAge)

def checkHashAge : Option Bool :=
  (q.ages[hash]?).map (checkAge q.hashHeight maxAge)

def genesisHash : BlockhashQueue :=
  { q with ages := q.ages.insert hash ⟨lamportsPerSignature, 0⟩, lastHash := some hash }

end

end BlockhashQueue

end Panoptes.Runtime
