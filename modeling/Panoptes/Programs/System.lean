import Panoptes.Sdk.Pubkey
import Panoptes.Stake.Program

/-!
# The system program

`runtime/src/system_instruction_processor.rs` and `sdk/src/nonce_keyed_account.rs`: creating,
assigning and funding accounts, by key or by an address derived from a base key, and the accounts
that hold a nonce.

* `readNonceState`, `nonceStateBytes` — the state of a nonce account as bytes.
* `Address`, `allocate`, `assign`, `createAccount`, `transfer`, … — the helpers, each with its own
  rule for signatures.
* `advanceNonceAccount`, `withdrawNonceAccount`, `initializeNonceAccount`, `authorizeNonceAccount`.
* `processInstruction` — the twelve instructions.
* `Permitted` — what may happen to an account besides its lamports; `Moves` — a transfer that leaves
  all data alone.
* `processInstruction_effect` — an instruction rewrites accounts as permitted, then moves lamports
  out of an account that may spend them.

Principal results: `system_acts_with_permission`, `withdrawNonceAccount_exact_iff`.
-/

set_option autoImplicit false

namespace Panoptes.SystemProgram

open Lib Sdk KeyedAccount
open StakeProgram (fail nextKeyedAccount nextKeyedAccount_eq_ok)

abbrev ByteAccount := Account (List UInt8)
abbrev ByteLedger := Ledger (List UInt8)

/-- `SysvarRecentB1ockHashes11111111111111111111`. -/
def RECENT_BLOCKHASHES_ID : Pubkey :=
  0x06a7d517192c568ee08a845f73d29788cf035c3145b21ab344d8062ea9400000

def MAX_PERMITTED_DATA_LENGTH : Nat := 10 * 1024 * 1024

inductive SystemError where
  | accountAlreadyInUse
  | resultWithNegativeLamports
  | invalidProgramId
  | invalidAccountDataLength
  | maxSeedLengthExceeded
  | addressWithSeedMismatch
  deriving DecidableEq, Repr

open SystemError

def SystemError.into : SystemError → InstructionError
  | .accountAlreadyInUse => .custom 0
  | .resultWithNegativeLamports => .custom 1
  | .invalidProgramId => .custom 2
  | .invalidAccountDataLength => .custom 3
  | .maxSeedLengthExceeded => .custom 4
  | .addressWithSeedMismatch => .custom 5

inductive NonceError where
  | noRecentBlockhashes
  | notExpired
  | unexpectedValue
  | badAccountState
  deriving DecidableEq, Repr

open NonceError

def NonceError.into : NonceError → InstructionError
  | .noRecentBlockhashes => .custom 0
  | .notExpired => .custom 1
  | .unexpectedValue => .custom 2
  | .badAccountState => .custom 3

/-- A `PubkeyError` as an instruction error: its number in the enumeration. -/
def pubkeyErrorInto : PubkeyError → InstructionError
  | .maxSeedLengthExceeded => .custom 0
  | .invalidSeeds => .custom 1

/-! ## Account data -/

section

variable (account : ByteAccount) (bytes : List UInt8)

/-- `nonce::state::Versions` as bincode writes it. -/
def nonceStateBytes : NonceState → List UInt8
  | .uninitialized => leBytes 4 0 ++ leBytes 4 0
  | .initialized data =>
    leBytes 4 0 ++ (leBytes 4 1 ++ (pubkeyBytes data.authority ++ (pubkeyBytes data.blockhash
      ++ leBytes 8 data.lamportsPerSignature)))

/-- `deserialize::<nonce::state::Versions>`, converted to the current version; bytes behind the
value are allowed. -/
def readNonceState : Option NonceState :=
  if bytes.length < 8 then none
  else if leNat (bytesAt bytes 0 4) ≠ 0 then none
  else if leNat (bytesAt bytes 4 4) = 0 then some .uninitialized
  else if leNat (bytesAt bytes 4 4) = 1 then
    if bytes.length < 80 then none
    else
      some (.initialized
        { authority := pubkeyOfBytes (bytesAt bytes 8 32)
          blockhash := pubkeyOfBytes (bytesAt bytes 40 32)
          lamportsPerSignature := leNat (bytesAt bytes 72 8) })
  else none

/-- `AccountUtilsState::<Versions>::state(self)?.convert_to_current()`. -/
def nonceState : Res InstructionError NonceState :=
  match readNonceState account.data with
  | some state => .ok state
  | none => fail .invalidAccountData

/-- `set_state`, which never changes the length of the data. -/
def setNonceState (state : NonceState) : Res InstructionError ByteAccount :=
  if (nonceStateBytes state).length > account.data.length then fail .accountDataTooSmall
  else .ok { account with data := writeAt account.data 0 (nonceStateBytes state) }

/-- An entry of the `RecentBlockhashes` sysvar. -/
structure Entry where
  blockhash : Hash
  lamportsPerSignature : Nat
  deriving DecidableEq, Repr

def readEntries : Nat → List UInt8 → Option (List Entry)
  | 0, _ => some []
  | n + 1, bytes =>
    if bytes.length < 40 then none
    else do
      let entries ← readEntries n (bytes.drop 40)
      some (⟨pubkeyOfBytes (bytes.take 32), leNat (bytesAt bytes 32 8)⟩ :: entries)

/-- `deserialize::<RecentBlockhashes>`. -/
def readRecentBlockhashes : Option (List Entry) :=
  if bytes.length < 8 then none else readEntries (leNat (bytes.take 8)) (bytes.drop 8)

/-- `deserialize::<Rent>`. -/
def readRent : Option Rent :=
  if bytes.length < 17 then none
  else some ⟨leNat (bytesAt bytes 0 8), F64.ofBits (leNat (bytesAt bytes 8 8)),
    leNat (bytesAt bytes 16 1)⟩

end

/-- `from_keyed_account` on the next account: the value of a sysvar, if the account is at its
address. -/
def fromKeyedAccount {α : Type} (address : Pubkey) (read : List UInt8 → Option α) (l : ByteLedger)
    (keyedAccounts : List KeyedAccount) : Res InstructionError (α × List KeyedAccount) := do
  let (k, rest) ← nextKeyedAccount keyedAccounts
  if k.key ≠ address then fail .invalidArgument
  else
    match read (l.get k.key).data with
    | some value => .ok (value, rest)
    | none => fail .invalidArgument

/-! ## Helpers -/

/-- An address that may have been derived from a base. -/
structure Address where
  address : Pubkey
  base : Option Pubkey
  deriving DecidableEq, Repr

open Address

def Address.isSigner (a : Address) (signers : Finset Pubkey) : Bool :=
  match a.base with
  | some base => decide (base ∈ signers)
  | none => decide (a.address ∈ signers)

section Hash

-- The hash of `create_with_seed`.
variable (hash : List UInt8 → Pubkey)

/-- `Pubkey::create_with_seed(base, seed, owner)?` of an instruction. -/
def seedAddress (base : Pubkey) (seed : String) (owner : Pubkey) : Res InstructionError Pubkey :=
  match createWithSeed hash base seed owner with
  | .ok address => .ok address
  | .error e => fail (pubkeyErrorInto e)

def Address.create (address : Pubkey) (withSeed : Option (Pubkey × String × Pubkey)) :
    Res InstructionError Address :=
  match withSeed with
  | some (base, seed, owner) => do
    -- re-derive the address, it must match the supplied one
    let derived ← seedAddress hash base seed owner
    if address ≠ derived then fail addressWithSeedMismatch.into else .ok ⟨address, some base⟩
  | none => .ok ⟨address, none⟩

def allocate (account : ByteAccount) (address : Address) (space : Nat) (signers : Finset Pubkey) :
    Res InstructionError ByteAccount :=
  if ¬ address.isSigner signers then fail .missingRequiredSignature
  else if account.data ≠ [] ∨ account.owner ≠ SYSTEM_PROGRAM_ID then fail accountAlreadyInUse.into
  else if space > MAX_PERMITTED_DATA_LENGTH then fail invalidAccountDataLength.into
  else .ok { account with data := List.replicate space 0 }

def assign (account : ByteAccount) (address : Address) (owner : Pubkey) (signers : Finset Pubkey) :
    Res InstructionError ByteAccount :=
  if account.owner = owner then .ok account
  else if ¬ address.isSigner signers then fail .missingRequiredSignature
  -- guard against sysvars being made
  else if owner = SYSVAR_ID then fail invalidProgramId.into
  else .ok { account with owner }

def allocateAndAssign (account : ByteAccount) (address : Address) (space : Nat) (owner : Pubkey)
    (signers : Finset Pubkey) : Res InstructionError ByteAccount := do
  let account ← allocate account address space signers
  assign account address owner signers

variable (o : Overflow) (l : ByteLedger)

/-- `src.lamports -= lamports` and `dst.lamports += lamports`, which may be one account. -/
def moveLamports (src dst : Pubkey) (lamports : Nat) : Res InstructionError ByteLedger := do
  let taken ← liftPanic (subU64 o (l.get src).lamports lamports)
  let l := l.set src { l.get src with lamports := taken }
  let given ← liftPanic (addU64 o (l.get dst).lamports lamports)
  .ok (l.set dst { l.get dst with lamports := given })

def transferVerified (src dst : Pubkey) (lamports : Nat) : Res InstructionError ByteLedger :=
  if (l.get src).data ≠ [] then fail .invalidArgument
  else if lamports > (l.get src).lamports then fail resultWithNegativeLamports.into
  else moveLamports o l src dst lamports

def transfer (src dst : KeyedAccount) (lamports : Nat) : Res InstructionError ByteLedger :=
  if lamports = 0 then .ok l
  else if src.signerKey = none then fail .missingRequiredSignature
  else transferVerified o l src.key dst.key lamports

def transferWithSeed (src base : KeyedAccount) (seed : String) (owner : Pubkey)
    (dst : KeyedAccount) (lamports : Nat) : Res InstructionError ByteLedger :=
  if lamports = 0 then .ok l
  else if base.signerKey = none then fail .missingRequiredSignature
  else do
    let derived ← seedAddress hash base.key seed owner
    if src.key ≠ derived then fail addressWithSeedMismatch.into
    else transferVerified o l src.key dst.key lamports

def createAccount (src dst : KeyedAccount) (address : Address) (lamports space : Nat)
    (owner : Pubkey) (signers : Finset Pubkey) : Res InstructionError ByteLedger :=
  if (l.get dst.key).lamports > 0 then fail accountAlreadyInUse.into
  else do
    let account ← allocateAndAssign (l.get dst.key) address space owner signers
    transfer o (l.set dst.key account) src dst lamports

/-! ## Nonce accounts -/

section

variable (account : ByteAccount) (nonceAuthority : Pubkey) (recentBlockhashes : List Entry)
  (rent : Rent) (signers : Finset Pubkey)

def advanceNonceAccount : Res InstructionError ByteAccount :=
  match recentBlockhashes with
  | [] => fail noRecentBlockhashes.into
  | recent :: _ => do
    match ← nonceState account with
    | .initialized data =>
      if data.authority ∉ signers then fail .missingRequiredSignature
      else if data.blockhash = recent.blockhash then fail notExpired.into
      else
        setNonceState account (.initialized
          { data with
            blockhash := recent.blockhash, lamportsPerSignature := recent.lamportsPerSignature })
    | .uninitialized => fail badAccountState.into

/-- The first half of `withdraw_nonce_account`: the account, uninitialized if everything is
withdrawn, and who has to sign. -/
def withdrawSigner (o : Overflow) (key : Pubkey) (account : ByteAccount) (lamports : Nat)
    (recentBlockhashes : List Entry) (rent : Rent) :
    Res InstructionError (ByteAccount × Pubkey) := do
  match ← nonceState account with
  | .uninitialized =>
    if lamports > account.lamports then fail .insufficientFunds else .ok (account, key)
  | .initialized data =>
    if lamports = account.lamports then do
      let recent ← liftPanic (index recentBlockhashes 0)
      if data.blockhash = recent.blockhash then fail notExpired.into
      else do
        let account ← setNonceState account .uninitialized
        .ok (account, data.authority)
    else do
      let needed ← liftPanic (addU64 o lamports (rent.minimumBalance account.data.length))
      if needed > account.lamports then fail .insufficientFunds else .ok (account, data.authority)

def withdrawNonceAccount (me dst : Pubkey) (lamports : Nat)
    (recentBlockhashes : List Entry) (rent : Rent) (signers : Finset Pubkey) :
    Res InstructionError ByteLedger := do
  let (account, signer) ← withdrawSigner o me (l.get me) lamports recentBlockhashes rent
  if signer ∉ signers then fail .missingRequiredSignature
  else moveLamports o (l.set me account) me dst lamports

def initializeNonceAccount : Res InstructionError ByteAccount :=
  match recentBlockhashes with
  | [] => fail noRecentBlockhashes.into
  | recent :: _ => do
    match ← nonceState account with
    | .uninitialized =>
      if account.lamports < rent.minimumBalance account.data.length then fail .insufficientFunds
      else
        setNonceState account
          (.initialized ⟨nonceAuthority, recent.blockhash, recent.lamportsPerSignature⟩)
    | .initialized _ => fail badAccountState.into

def authorizeNonceAccount : Res InstructionError ByteAccount := do
  match ← nonceState account with
  | .initialized data =>
    if data.authority ∉ signers then fail .missingRequiredSignature
    else setNonceState account (.initialized { data with authority := nonceAuthority })
  | .uninitialized => fail badAccountState.into

end

/-! ## Instructions -/

inductive SystemInstruction where
  | createAccount (lamports space : Nat) (owner : Pubkey)
  | assign (owner : Pubkey)
  | transfer (lamports : Nat)
  | createAccountWithSeed (base : Pubkey) (seed : String) (lamports space : Nat) (owner : Pubkey)
  | advanceNonceAccount
  | withdrawNonceAccount (lamports : Nat)
  | initializeNonceAccount (authorized : Pubkey)
  | authorizeNonceAccount (authorized : Pubkey)
  | allocate (space : Nat)
  | allocateWithSeed (base : Pubkey) (seed : String) (space : Nat) (owner : Pubkey)
  | assignWithSeed (base : Pubkey) (seed : String) (owner : Pubkey)
  | transferWithSeed (lamports : Nat) (fromSeed : String) (fromOwner : Pubkey)
  deriving DecidableEq, Repr

/-- `process_instruction`, on the instruction that `limited_deserialize` gives. -/
def processInstruction (keyedAccounts : List KeyedAccount)
    (instruction : SystemInstruction) : Res InstructionError ByteLedger := do
  let signers := getSigners keyedAccounts
  let (me, rest) ← nextKeyedAccount keyedAccounts
  match instruction with
  | .createAccount lamports space owner => do
    let (dst, _) ← nextKeyedAccount rest
    let address ← create hash dst.key none
    createAccount o l me dst address lamports space owner signers
  | .createAccountWithSeed base seed lamports space owner => do
    let (dst, _) ← nextKeyedAccount rest
    let address ← create hash dst.key (some (base, seed, owner))
    createAccount o l me dst address lamports space owner signers
  | .assign owner => do
    let address ← create hash me.key none
    let account ← assign (l.get me.key) address owner signers
    .ok (l.set me.key account)
  | .transfer lamports => do
    let (dst, _) ← nextKeyedAccount rest
    transfer o l me dst lamports
  | .transferWithSeed lamports fromSeed fromOwner => do
    let (base, rest) ← nextKeyedAccount rest
    let (dst, _) ← nextKeyedAccount rest
    transferWithSeed hash o l me base fromSeed fromOwner dst lamports
  | .advanceNonceAccount => do
    let (recentBlockhashes, _) ← fromKeyedAccount RECENT_BLOCKHASHES_ID readRecentBlockhashes l rest
    let account ← advanceNonceAccount (l.get me.key) recentBlockhashes signers
    .ok (l.set me.key account)
  | .withdrawNonceAccount lamports => do
    let (dst, rest) ← nextKeyedAccount rest
    let (recentBlockhashes, rest) ← fromKeyedAccount RECENT_BLOCKHASHES_ID
      readRecentBlockhashes l rest
    let (rent, _) ← fromKeyedAccount RENT_ID readRent l rest
    withdrawNonceAccount o l me.key dst.key lamports recentBlockhashes rent signers
  | .initializeNonceAccount authorized => do
    let (recentBlockhashes, rest) ← fromKeyedAccount RECENT_BLOCKHASHES_ID
      readRecentBlockhashes l rest
    let (rent, _) ← fromKeyedAccount RENT_ID readRent l rest
    let account ← initializeNonceAccount (l.get me.key) authorized recentBlockhashes rent
    .ok (l.set me.key account)
  | .authorizeNonceAccount authorized => do
    let account ← authorizeNonceAccount (l.get me.key) authorized signers
    .ok (l.set me.key account)
  | .allocate space => do
    let address ← create hash me.key none
    let account ← allocate (l.get me.key) address space signers
    .ok (l.set me.key account)
  | .allocateWithSeed base seed space owner => do
    let address ← create hash me.key (some (base, seed, owner))
    let account ← allocateAndAssign (l.get me.key) address space owner signers
    .ok (l.set me.key account)
  | .assignWithSeed base seed owner => do
    let address ← create hash me.key (some (base, seed, owner))
    let account ← assign (l.get me.key) address owner signers
    .ok (l.set me.key account)

end Hash

/-! ## Permission -/

section Permission

variable {hash : List UInt8 → Pubkey} {signers : Finset Pubkey} {key owner dst : Pubkey}
  {a a' : ByteAccount} {l l' : ByteLedger} {seed : String} {address : Address}
  {space lamports n : Nat} {recentBlockhashes : List Entry} {rent : Rent} {src : KeyedAccount}
  {keyedAccounts : List KeyedAccount}

variable (hash signers key) in
/-- The address is `create_with_seed` of a base that signed and of the owner. -/
def SeedSigned (owner : Pubkey) : Prop :=
  ∃ base ∈ signers, ∃ seed, createWithSeed hash base seed owner = .ok key

/-- Who may withdraw from the nonce account at an address: the stored authority, or the account
while it is uninitialized. -/
def withdrawAuthority (key : Pubkey) : NonceState → Pubkey
  | .uninitialized => key
  | .initialized data => data.authority

variable (hash signers key) in
/-- Who may take lamports from an account. -/
def MaySpend (a : ByteAccount) : Prop :=
  key ∈ signers
    ∨ (∃ owner, SeedSigned hash signers key owner)
    ∨ ∃ state, readNonceState a.data = some state ∧ withdrawAuthority key state ∈ signers

variable (hash signers key) in
/-- What may happen to an account besides its lamports. -/
structure Permitted (a a' : ByteAccount) : Prop where
  lamports : a'.lamports = a.lamports
  changed : a'.owner ≠ a.owner ∨ a'.data.length ≠ a.data.length → key ∈ signers ∨
    SeedSigned hash signers key a'.owner
  resized : a'.data.length ≠ a.data.length →
    a.data = [] ∧ a.owner = SYSTEM_PROGRAM_ID ∧ ∃ space, a'.data = List.replicate space 0

theorem Permitted.of_length (hlamports : a'.lamports = a.lamports) (howner : a'.owner = a.owner)
    (hlen : a'.data.length = a.data.length) : Permitted hash signers key a a' :=
  ⟨hlamports, fun h => absurd h (not_or.mpr ⟨not_not.mpr howner, not_not.mpr hlen⟩),
    fun h => absurd hlen h⟩

theorem Permitted.refl (a : ByteAccount) : Permitted hash signers key a a := .of_length rfl rfl rfl

theorem Permitted.get_set (h : Permitted hash signers key (l.get key) a)
    (key' : Pubkey) : Permitted hash signers key' (l.get key') ((l.set key a).get key') := by
  rw [Ledger.get_set]
  by_cases hkey : key' = key
  · subst hkey
    rw [if_pos rfl]
    exact h
  · rw [if_neg hkey]
    exact .refl _

/-! ## Assigning and allocating -/

variable (hash key) in
/-- The address is the account's, and a base that comes with it derives it for the owner. -/
def Address.DerivedFor (owner : Pubkey) (address : Address) : Prop :=
  address.address = key ∧ ∀ base, address.base = some base →
    ∃ seed, createWithSeed hash base seed owner = .ok key

theorem seedAddress_eq_ok {base address : Pubkey}
    (h : seedAddress hash base seed owner = .ok address) :
    createWithSeed hash base seed owner = .ok address := by
  unfold seedAddress at h
  cases hseed : createWithSeed hash base seed owner with
  | error => rw [hseed] at h; cases h
  | ok => rw [hseed] at h; cases h; rfl

theorem Address.create_key (owner : Pubkey) (h : create hash key none = .ok address) :
    address.DerivedFor hash key owner := by
  cases h
  exact ⟨rfl, fun _ hbase => nomatch hbase⟩

theorem Address.create_seed {base : Pubkey}
    (h : create hash key (some (base, seed, owner)) = .ok address) :
    address.DerivedFor hash key owner := by
  obtain ⟨derived, hderived, h⟩ := bind_eq_ok.mp h
  obtain ⟨hne, h⟩ := ite_error_eq_ok.mp h
  cases h
  refine ⟨rfl, fun base' hbase => ?_⟩
  cases hbase
  rw [not_ne_iff.mp hne]
  exact ⟨seed, seedAddress_eq_ok hderived⟩

theorem Address.DerivedFor.signed (h : address.DerivedFor hash key owner)
    (hsigner : address.isSigner signers = true) :
    key ∈ signers ∨ SeedSigned hash signers key owner := by
  unfold isSigner at hsigner
  cases hbase : address.base with
  | none =>
    rw [hbase] at hsigner
    exact .inl (h.1 ▸ of_decide_eq_true hsigner)
  | some base =>
    rw [hbase] at hsigner
    exact .inr ⟨base, of_decide_eq_true hsigner, h.2 base hbase⟩

theorem allocate_eq_ok (h : allocate a address space signers = .ok a') :
    address.isSigner signers = true ∧ a.data = [] ∧ a.owner = SYSTEM_PROGRAM_ID
      ∧ a' = { a with data := List.replicate space 0 } := by
  obtain ⟨hsigner, h⟩ := ite_error_eq_ok.mp h
  obtain ⟨huse, h⟩ := ite_error_eq_ok.mp h
  obtain ⟨hspace, h⟩ := ite_error_eq_ok.mp h
  cases h
  obtain ⟨hdata, howner⟩ := not_or.mp huse
  exact ⟨not_not.mp hsigner, not_not.mp hdata, not_not.mp howner, rfl⟩

theorem assign_eq_ok (h : assign a address owner signers = .ok a') :
    a' = { a with owner } ∧ (a.owner ≠ owner → address.isSigner signers = true) := by
  unfold assign at h
  by_cases hsame : a.owner = owner
  · rw [if_pos hsame] at h
    cases h
    subst hsame
    exact ⟨rfl, fun hne => absurd rfl hne⟩
  rw [if_neg hsame] at h
  obtain ⟨hsigner, h⟩ := ite_error_eq_ok.mp h
  obtain ⟨hsysvar, h⟩ := ite_error_eq_ok.mp h
  cases h
  exact ⟨rfl, fun _ => not_not.mp hsigner⟩

theorem allocate_permitted (haddress : address.DerivedFor hash key a.owner)
    (h : allocate a address space signers = .ok a') :
    Permitted hash signers key a a' := by
  obtain ⟨hsigner, hdata, howner, rfl⟩ := allocate_eq_ok h
  exact ⟨rfl, fun _ => haddress.signed hsigner, fun _ => ⟨hdata, howner, space, rfl⟩⟩

theorem assign_permitted (haddress : address.DerivedFor hash key owner)
    (h : assign a address owner signers = .ok a') :
    Permitted hash signers key a a' := by
  obtain ⟨rfl, hsigner⟩ := assign_eq_ok h
  refine ⟨rfl, fun hchange => haddress.signed (hsigner ?_), fun hne => absurd rfl hne⟩
  exact (hchange.resolve_right fun hne => hne rfl).symm

theorem allocateAndAssign_permitted (haddress : address.DerivedFor hash key owner)
    (h : allocateAndAssign a address space owner signers = .ok a') :
    Permitted hash signers key a a' := by
  obtain ⟨a₁, hallocate, hassign⟩ := bind_eq_ok.mp h
  obtain ⟨hsigner, hdata, howner, rfl⟩ := allocate_eq_ok hallocate
  obtain ⟨rfl, -⟩ := assign_eq_ok hassign
  exact ⟨rfl, fun _ => haddress.signed hsigner, fun _ => ⟨hdata, howner, space, rfl⟩⟩

/-! ## Nonce accounts -/

theorem nonceState_eq_ok {state : NonceState} (h : nonceState a = .ok state) :
    readNonceState a.data = some state := by
  unfold nonceState at h
  cases hread : readNonceState a.data with
  | none => rw [hread] at h; cases h
  | some => rw [hread] at h; cases h; rfl

theorem setNonceState_permitted {state : NonceState} (h : setNonceState a state = .ok a') :
    Permitted hash signers key a a' := by
  obtain ⟨hlen, h⟩ := ite_error_eq_ok.mp h
  cases h
  exact .of_length rfl rfl (length_writeAt (by omega))

theorem advanceNonceAccount_permitted
    (h : advanceNonceAccount a recentBlockhashes signers = .ok a') :
    Permitted hash signers key a a' := by
  cases recentBlockhashes with
  | nil => cases h
  | cons =>
    obtain ⟨state, -, h⟩ := bind_eq_ok.mp h
    cases state with
    | uninitialized => cases h
    | initialized =>
      obtain ⟨hsigner, h⟩ := ite_error_eq_ok.mp h
      obtain ⟨hexpired, h⟩ := ite_error_eq_ok.mp h
      exact setNonceState_permitted h

theorem initializeNonceAccount_permitted {authority : Pubkey}
    (h : initializeNonceAccount a authority recentBlockhashes rent = .ok a') :
    Permitted hash signers key a a' := by
  cases recentBlockhashes with
  | nil => cases h
  | cons =>
    obtain ⟨state, -, h⟩ := bind_eq_ok.mp h
    cases state with
    | initialized => cases h
    | uninitialized =>
      obtain ⟨hfunds, h⟩ := ite_error_eq_ok.mp h
      exact setNonceState_permitted h

theorem authorizeNonceAccount_permitted {authority : Pubkey}
    (h : authorizeNonceAccount a authority signers = .ok a') : Permitted hash signers key a a' := by
  obtain ⟨state, -, h⟩ := bind_eq_ok.mp h
  cases state with
  | uninitialized => cases h
  | initialized =>
    obtain ⟨hsigner, h⟩ := ite_error_eq_ok.mp h
    exact setNonceState_permitted h

theorem withdrawSigner_eq_ok {o : Overflow} {signer : Pubkey}
    (h : withdrawSigner o key a lamports recentBlockhashes rent = .ok (a', signer)) :
    Permitted hash signers key a a' ∧ ∃ state, readNonceState a.data = some state ∧
      signer = withdrawAuthority key state := by
  obtain ⟨state, hstate, h⟩ := bind_eq_ok.mp h
  have hread := nonceState_eq_ok hstate
  cases state with
  | uninitialized =>
    obtain ⟨hfunds, h⟩ := ite_error_eq_ok.mp h
    cases h
    exact ⟨.refl _, _, hread, rfl⟩
  | initialized =>
    dsimp only at h
    by_cases hall : lamports = a.lamports
    · rw [if_pos hall] at h
      obtain ⟨recent, -, h⟩ := bind_eq_ok.mp h
      obtain ⟨hexpired, h⟩ := ite_error_eq_ok.mp h
      obtain ⟨account, hset, h⟩ := bind_eq_ok.mp h
      cases h
      exact ⟨setNonceState_permitted hset, _, hread, rfl⟩
    · rw [if_neg hall] at h
      obtain ⟨needed, -, h⟩ := bind_eq_ok.mp h
      obtain ⟨hfunds, h⟩ := ite_error_eq_ok.mp h
      cases h
      exact ⟨.refl _, _, hread, rfl⟩

/-! ## Moving lamports -/

/-- A transfer that leaves all data alone. -/
structure Moves (l l' : ByteLedger) (src dst : Pubkey)
    (n : Nat) : Prop extends l.Transfer l' src dst n where
  data : ∀ key, (l'.get key).data = (l.get key).data

theorem Moves.none (l : ByteLedger) (key : Pubkey) : Moves l l key key 0 where
  enough := Nat.zero_le _
  lamports _ := rfl
  owner _ := rfl
  frame _ _ _ := rfl
  data _ := rfl

theorem moveLamports_moves {src : Pubkey}
    (h : moveLamports .checked l src dst n = .ok l') : Moves l l' src dst n := by
  obtain ⟨taken, hsub, h⟩ := bind_eq_ok.mp h
  obtain ⟨given, hadd, h⟩ := bind_eq_ok.mp h
  have hle : n ≤ (l.get src).lamports := by
    by_contra hlt
    unfold subU64 at hsub
    rw [if_neg hlt] at hsub
    cases hsub
  rw [subU64_ok _ hle] at hsub
  cases hsub
  cases h
  rw [addU64_eq_ok (liftPanic_eq_ok hadd) (.inl rfl)]
  obtain ⟨htransfer, hdata⟩ := Ledger.transfer_of_writes hle rfl rfl
  exact ⟨htransfer, hdata⟩

theorem transferVerified_moves {src : Pubkey}
    (h : transferVerified .checked l src dst n = .ok l') : Moves l l' src dst n := by
  obtain ⟨hdata, h⟩ := ite_error_eq_ok.mp h
  obtain ⟨hfunds, h⟩ := ite_error_eq_ok.mp h
  exact moveLamports_moves h

/-- What an instruction does: it rewrites accounts as permitted, and then moves lamports out of one
that may spend them. -/
def Effect (hash : List UInt8 → Pubkey) (signers : Finset Pubkey) (l l' : ByteLedger) : Prop :=
  ∃ l₁ src dst n, (∀ key, Permitted hash signers key (l.get key) (l₁.get key)) ∧
    Moves l₁ l' src dst n
    ∧ (n ≠ 0 → MaySpend hash signers src (l.get src))

theorem Effect.of_set (h : Permitted hash signers key (l.get key) a) :
    Effect hash signers l (l.set key a) :=
  ⟨_, key, key, 0, h.get_set, .none _ key, fun hne => absurd rfl hne⟩

theorem transfer_effect {l₁ : ByteLedger} {dst : KeyedAccount}
    (hrewritten : ∀ key, Permitted hash signers key (l.get key) (l₁.get key))
    (hsigner : src.signerKey ≠ none → src.key ∈ signers)
    (h : transfer .checked l₁ src dst n = .ok l') : Effect hash signers l l' := by
  unfold transfer at h
  by_cases hzero : n = 0
  · rw [if_pos hzero] at h
    cases h
    exact ⟨l', src.key, src.key, 0, hrewritten, .none _ _, fun hne => absurd rfl hne⟩
  rw [if_neg hzero] at h
  obtain ⟨hunsigned, h⟩ := ite_error_eq_ok.mp h
  exact ⟨l₁, src.key, dst.key, n, hrewritten, transferVerified_moves h,
    fun _ => .inl (hsigner hunsigned)⟩

theorem transferWithSeed_effect {base dst : KeyedAccount}
    (hsigner : base.signerKey ≠ none → base.key ∈ signers)
    (h : transferWithSeed hash .checked l src base seed owner dst n = .ok l') :
    Effect hash signers l l' := by
  unfold transferWithSeed at h
  by_cases hzero : n = 0
  · rw [if_pos hzero] at h
    cases h
    exact ⟨l, src.key, src.key, 0, fun _ => .refl _, .none _ _, fun hne => absurd rfl hne⟩
  rw [if_neg hzero] at h
  obtain ⟨hunsigned, h⟩ := ite_error_eq_ok.mp h
  obtain ⟨derived, hderived, h⟩ := bind_eq_ok.mp h
  obtain ⟨hne, h⟩ := ite_error_eq_ok.mp h
  have hseed : SeedSigned hash signers src.key owner := by
    rw [not_ne_iff.mp hne]
    exact ⟨base.key, hsigner hunsigned, seed, seedAddress_eq_ok hderived⟩
  exact ⟨l, src.key, dst.key, n, fun _ => .refl _, transferVerified_moves h,
    fun _ => .inr (.inl ⟨owner, hseed⟩)⟩

theorem createAccount_effect {dst : KeyedAccount} (haddress : address.DerivedFor hash dst.key owner)
    (hsigner : src.signerKey ≠ none → src.key ∈ signers)
    (h : createAccount .checked l src dst address lamports space owner signers = .ok l') :
    Effect hash signers l l' := by
  obtain ⟨huse, h⟩ := ite_error_eq_ok.mp h
  obtain ⟨account, haccount, h⟩ := bind_eq_ok.mp h
  exact transfer_effect (allocateAndAssign_permitted haddress haccount).get_set hsigner h

theorem withdrawNonceAccount_effect {me : Pubkey}
    (h : withdrawNonceAccount .checked l me dst lamports recentBlockhashes rent signers = .ok l') :
    Effect hash signers l l' := by
  obtain ⟨⟨account, signer⟩, hwithdraw, h⟩ := bind_eq_ok.mp h
  obtain ⟨hpermitted, state, hread, rfl⟩ : Permitted hash signers me (l.get me) account
      ∧ ∃ state, readNonceState (l.get me).data = some state ∧
        signer = withdrawAuthority me state :=
    withdrawSigner_eq_ok hwithdraw
  obtain ⟨hsigner, h⟩ := ite_error_eq_ok.mp h
  exact ⟨_, me, dst, lamports, hpermitted.get_set, moveLamports_moves h,
    fun _ => .inr (.inr ⟨state, hread, not_not.mp hsigner⟩)⟩

theorem mem_getSigners_of_signerKey {k : KeyedAccount} (hmem : k ∈ keyedAccounts)
    (h : k.signerKey ≠ none) : k.key ∈ getSigners keyedAccounts := by
  refine mem_getSigners.mpr ⟨k, hmem, ?_, rfl⟩
  by_contra hsigner
  exact h (if_neg hsigner)

/-- **What an instruction does**, in the build that checks its sums. -/
theorem processInstruction_effect {instruction : SystemInstruction}
    (h : processInstruction hash .checked l keyedAccounts instruction = .ok l') :
    Effect hash (getSigners keyedAccounts) l l' := by
  obtain ⟨⟨me, rest⟩, hme, h⟩ := bind_eq_ok.mp h
  have hkeyed := nextKeyedAccount_eq_ok hme
  have hsigner : me.signerKey ≠ none → me.key ∈ getSigners keyedAccounts :=
    mem_getSigners_of_signerKey (hkeyed ▸ List.mem_cons_self)
  cases instruction with
  | createAccount lamports space owner =>
    obtain ⟨⟨dst, _⟩, -, h⟩ := bind_eq_ok.mp h
    obtain ⟨address, haddress, h⟩ := bind_eq_ok.mp h
    exact createAccount_effect (create_key owner haddress) hsigner h
  | createAccountWithSeed =>
    obtain ⟨⟨dst, _⟩, -, h⟩ := bind_eq_ok.mp h
    obtain ⟨address, haddress, h⟩ := bind_eq_ok.mp h
    exact createAccount_effect (create_seed haddress) hsigner h
  | assign owner =>
    obtain ⟨address, haddress, h⟩ := bind_eq_ok.mp h
    obtain ⟨account, haccount, h⟩ := bind_eq_ok.mp h
    cases h
    exact .of_set (assign_permitted (create_key owner haddress) haccount)
  | transfer =>
    obtain ⟨⟨dst, _⟩, -, h⟩ := bind_eq_ok.mp h
    exact transfer_effect (fun _ => .refl _) hsigner h
  | transferWithSeed =>
    obtain ⟨⟨base, rest'⟩, hbase, h⟩ := bind_eq_ok.mp h
    obtain ⟨⟨dst, _⟩, -, h⟩ := bind_eq_ok.mp h
    have hmem : base ∈ keyedAccounts := by
      rw [hkeyed, nextKeyedAccount_eq_ok hbase]
      exact List.mem_cons_of_mem _ List.mem_cons_self
    exact transferWithSeed_effect (mem_getSigners_of_signerKey hmem) h
  | advanceNonceAccount =>
    obtain ⟨⟨recentBlockhashes, _⟩, -, h⟩ := bind_eq_ok.mp h
    obtain ⟨account, haccount, h⟩ := bind_eq_ok.mp h
    cases h
    exact .of_set (advanceNonceAccount_permitted haccount)
  | withdrawNonceAccount =>
    obtain ⟨⟨dst, _⟩, -, h⟩ := bind_eq_ok.mp h
    obtain ⟨⟨recentBlockhashes, _⟩, -, h⟩ := bind_eq_ok.mp h
    obtain ⟨⟨rent, _⟩, -, h⟩ := bind_eq_ok.mp h
    exact withdrawNonceAccount_effect h
  | initializeNonceAccount =>
    obtain ⟨⟨recentBlockhashes, _⟩, -, h⟩ := bind_eq_ok.mp h
    obtain ⟨⟨rent, _⟩, -, h⟩ := bind_eq_ok.mp h
    obtain ⟨account, haccount, h⟩ := bind_eq_ok.mp h
    cases h
    exact .of_set (initializeNonceAccount_permitted haccount)
  | authorizeNonceAccount =>
    obtain ⟨account, haccount, h⟩ := bind_eq_ok.mp h
    cases h
    exact .of_set (authorizeNonceAccount_permitted haccount)
  | allocate =>
    obtain ⟨address, haddress, h⟩ := bind_eq_ok.mp h
    obtain ⟨account, haccount, h⟩ := bind_eq_ok.mp h
    cases h
    exact .of_set (allocate_permitted (create_key _ haddress) haccount)
  | allocateWithSeed =>
    obtain ⟨address, haddress, h⟩ := bind_eq_ok.mp h
    obtain ⟨account, haccount, h⟩ := bind_eq_ok.mp h
    cases h
    exact .of_set (allocateAndAssign_permitted (create_seed haddress) haccount)
  | assignWithSeed =>
    obtain ⟨address, haddress, h⟩ := bind_eq_ok.mp h
    obtain ⟨account, haccount, h⟩ := bind_eq_ok.mp h
    cases h
    exact .of_set (assign_permitted (create_seed haddress) haccount)

end Permission

/-! ## The build that checks its sums -/

section Builds

variable (hash : List UInt8 → Pubkey) (o : Overflow)

section

variable (l : ByteLedger)

theorem moveLamports_build (src dst : Pubkey) (n : Nat) :
    EqUnlessOverflow (moveLamports o l src dst n) (moveLamports .checked l src dst n) :=
  (EqUnlessOverflow.subU64 o _ _).bind fun _ => (EqUnlessOverflow.addU64 o _ _).bind
    fun _ => .refl _

theorem transferVerified_build (src dst : Pubkey) (n : Nat) :
    EqUnlessOverflow (transferVerified o l src dst n) (transferVerified .checked l src dst n) := by
  unfold transferVerified
  split
  · exact .refl _
  split
  · exact .refl _
  · exact moveLamports_build o l src dst n

theorem transfer_build (src dst : KeyedAccount) (n : Nat) :
    EqUnlessOverflow (transfer o l src dst n) (transfer .checked l src dst n) := by
  unfold transfer
  split
  · exact .refl _
  split
  · exact .refl _
  · exact transferVerified_build o l src.key dst.key n

theorem transferWithSeed_build (src base : KeyedAccount) (seed : String) (owner : Pubkey)
    (dst : KeyedAccount) (n : Nat) :
    EqUnlessOverflow (transferWithSeed hash o l src base seed owner dst n)
      (transferWithSeed hash .checked l src base seed owner dst n) := by
  unfold transferWithSeed
  split
  · exact .refl _
  split
  · exact .refl _
  · refine .after fun derived => ?_
    split
    · exact .refl _
    · exact transferVerified_build o l src.key dst.key n

theorem createAccount_build (src dst : KeyedAccount) (address : Address) (lamports space : Nat)
    (owner : Pubkey) (signers : Finset Pubkey) :
    EqUnlessOverflow (createAccount o l src dst address lamports space owner signers)
      (createAccount .checked l src dst address lamports space owner signers) := by
  unfold createAccount
  split
  · exact .refl _
  · exact .after fun account => transfer_build o _ src dst lamports

end

theorem withdrawSigner_build (key : Pubkey) (a : ByteAccount) (lamports : Nat)
    (recentBlockhashes : List Entry) (rent : Rent) :
    EqUnlessOverflow (withdrawSigner o key a lamports recentBlockhashes rent)
      (withdrawSigner .checked key a lamports recentBlockhashes rent) := by
  refine .after fun state => ?_
  cases state with
  | uninitialized => exact .refl _
  | initialized =>
    dsimp only
    split
    · exact .refl _
    · exact (EqUnlessOverflow.addU64 o _ _).bind fun needed => .refl _

theorem withdrawNonceAccount_build (l : ByteLedger) (me dst : Pubkey) (lamports : Nat)
    (recentBlockhashes : List Entry) (rent : Rent) (signers : Finset Pubkey) :
    EqUnlessOverflow (withdrawNonceAccount o l me dst lamports recentBlockhashes rent signers)
      (withdrawNonceAccount .checked l me dst lamports recentBlockhashes rent signers) := by
  refine (withdrawSigner_build o me _ lamports recentBlockhashes rent).bind
    fun ⟨account, signer⟩ => ?_
  dsimp only
  split
  · exact .refl _
  · exact moveLamports_build o _ me dst lamports

/-- **A release build and a build that checks** do the same, unless the second aborts on an
overflow. -/
theorem processInstruction_build (l : ByteLedger) (keyedAccounts : List KeyedAccount)
    (instruction : SystemInstruction) :
    EqUnlessOverflow (processInstruction hash o l keyedAccounts instruction)
      (processInstruction hash .checked l keyedAccounts instruction) := by
  refine .after fun ⟨me, rest⟩ => ?_
  cases instruction with
  | createAccount lamports space owner =>
    exact .after fun ⟨dst, _⟩ => .after fun address =>
      createAccount_build o l me dst address lamports space owner _
  | createAccountWithSeed base seed lamports space owner =>
    exact .after fun ⟨dst, _⟩ => .after fun address =>
      createAccount_build o l me dst address lamports space owner _
  | transfer lamports =>
    exact .after fun ⟨dst, _⟩ => transfer_build o l me dst lamports
  | transferWithSeed lamports fromSeed fromOwner =>
    exact .after fun ⟨base, _⟩ => .after fun ⟨dst, _⟩ =>
      transferWithSeed_build hash o l me base fromSeed fromOwner dst lamports
  | withdrawNonceAccount lamports =>
    exact .after fun ⟨dst, _⟩ => .after fun ⟨recentBlockhashes, _⟩ =>
      .after fun ⟨rent, _⟩ =>
        withdrawNonceAccount_build o l me.key dst.key lamports recentBlockhashes rent _
  | assign | advanceNonceAccount | initializeNonceAccount | authorizeNonceAccount | allocate
    | allocateWithSeed
  | assignWithSeed => exact .refl _

end Builds

/-! ## Principal result -/

/-- The system program acts only with permission: no lamports are made or lost, and an account is
spent from, assigned or resized only with the signatures this takes. -/
structure ActsWithPermission (hash : List UInt8 → Pubkey) (signers : Finset Pubkey)
    (l l' : ByteLedger) : Prop where
  lamports : l'.lamports = l.lamports
  spent : ∀ key, (l'.get key).lamports < (l.get key).lamports →
    MaySpend hash signers key (l.get key)
  changed : ∀ key,
    (l'.get key).owner ≠ (l.get key).owner ∨ (l'.get key).data.length ≠ (l.get key).data.length →
      key ∈ signers ∨ SeedSigned hash signers key (l'.get key).owner
  resized : ∀ key, (l'.get key).data.length ≠ (l.get key).data.length →
    (l.get key).data = [] ∧ (l.get key).owner = SYSTEM_PROGRAM_ID
      ∧ ∃ space, (l'.get key).data = List.replicate space 0

theorem Effect.acts {hash : List UInt8 → Pubkey} {signers : Finset Pubkey} {l l' : ByteLedger}
    (h : Effect hash signers l l') : ActsWithPermission hash signers l l' := by
  obtain ⟨l₁, src, dst, n, hrewritten, hmoves, hspend⟩ := h
  refine ⟨?_, fun key hless => ?_, fun key hchange => ?_, fun key hresized => ?_⟩
  · exact hmoves.lamports_eq.trans (Ledger.total_congr Account.default_lamports fun key =>
      (hrewritten key).lamports)
  · -- only the source of the transfer loses lamports
    have hbalance := hmoves.lamports key
    rw [(hrewritten key).lamports] at hbalance
    by_cases hsrc : key = src
    · rw [hsrc]
      refine hspend fun hzero => ?_
      rw [hzero, ite_self] at hbalance
      omega
    · rw [if_neg hsrc] at hbalance
      omega
  · rw [hmoves.owner, hmoves.data] at hchange
    rw [hmoves.owner]
    exact (hrewritten key).changed hchange
  · rw [hmoves.data] at hresized ⊢
    exact (hrewritten key).resized hresized

/-- **The system program acts only with permission**, for every instruction and every list of
accounts: whenever it returns and no 64-bit sum wraps on the way. -/
theorem system_acts_with_permission (hash : List UInt8 → Pubkey) (o : Overflow) (l l' : ByteLedger)
    (keyedAccounts : List KeyedAccount) (instruction : SystemInstruction)
    (hrun : processInstruction hash o l keyedAccounts instruction = .ok l')
    (hsums : processInstruction hash .checked l keyedAccounts instruction ≠
      .error (.panic .overflow)) :
    ActsWithPermission hash (getSigners keyedAccounts) l l' :=
  (processInstruction_effect
    (((processInstruction_build hash o l keyedAccounts instruction).eq_checked hsums).trans
      hrun)).acts

/-- A nonce account with 10 lamports and authority 1, and the sysvars. -/
def nonceLedger : ByteLedger :=
  (((∅ : ByteLedger).set 3 ⟨10, nonceStateBytes (.initialized ⟨1, 5, 0⟩),
    SYSTEM_PROGRAM_ID, false, 0⟩).set
    RECENT_BLOCKHASHES_ID ⟨1, leBytes 8 1 ++ (pubkeyBytes 6 ++ leBytes 8 0),
      SYSVAR_ID, false, 0⟩).set
    RENT_ID ⟨1, List.replicate 17 0, SYSVAR_ID, false, 0⟩

/-- The nonce account, the recipient, the sysvars and the authority, which alone signs. -/
def nonceAccounts : List KeyedAccount :=
  [⟨3, false, true⟩, ⟨4, false, true⟩, ⟨RECENT_BLOCKHASHES_ID, false, false⟩,
    ⟨RENT_ID, false, false⟩, ⟨1, true, false⟩]

theorem system_acts_with_permission_withdraw :
    ∃ l', processInstruction
      (fun _ => 0) .wrapping nonceLedger nonceAccounts (.withdrawNonceAccount 4) = .ok l'
      ∧ ActsWithPermission (fun _ => 0) (getSigners nonceAccounts) nonceLedger l' := by
  have hchecked :
      ∃ l', processInstruction
        (fun _ => 0) .checked nonceLedger nonceAccounts (.withdrawNonceAccount 4)
      = .ok l' := exists_eq_ok_of_isOk (by decide +kernel)
  obtain ⟨l', hrun⟩ : ∃ l', processInstruction (fun _ => 0) .wrapping nonceLedger nonceAccounts
      (.withdrawNonceAccount 4) = .ok l' := exists_eq_ok_of_isOk (by decide +kernel)
  refine ⟨l', hrun, system_acts_with_permission _ _ _ _ _ _ hrun fun hpanic => ?_⟩
  obtain ⟨l'', hok⟩ := hchecked
  rw [hok] at hpanic
  cases hpanic

/-! ## Exact withdrawals -/

section Withdrawals

variable {l : ByteLedger} {me : Pubkey} {lamports : Nat} {recentBlockhashes : List Entry}
  {rent : Rent} {signers : Finset Pubkey}

theorem moveLamports_exact (o : Overflow) {src : Pubkey} (dst : Pubkey) {n : Nat}
    (hfit : l.lamports < U64) (hle : n ≤ (l.get src).lamports) :
    ∃ l', moveLamports o l src dst n = .ok l' ∧ Moves l l' src dst n := by
  set l₁ := l.set src { l.get src with lamports := (l.get src).lamports - n } with h₁
  have hsupply := l.lamports_set src { l.get src with lamports := (l.get src).lamports - n }
  have hdst : (l₁.get dst).lamports ≤ l₁.lamports := l₁.get_lamports_le dst
  obtain ⟨htransfer, hdata⟩ : l.Transfer _ src dst n ∧ _ := Ledger.transfer_of_writes hle h₁ rfl
  refine ⟨_, ?_, htransfer, hdata⟩
  unfold moveLamports
  rw [← h₁] at hsupply
  rw [subU64_ok o hle, liftPanic_ok, ok_bind, ← h₁]
  dsimp only at hsupply ⊢
  rw [addU64_ok o (by omega)]
  rfl

/-- The ledger that a failed `withdraw_nonce_account` leaves: the state is written before the
signature is looked up. -/
def ledgerOnError (o : Overflow) (l : ByteLedger) (me : Pubkey) (lamports : Nat)
    (recentBlockhashes : List Entry) (rent : Rent) : ByteLedger :=
  match withdrawSigner o me (l.get me) lamports recentBlockhashes rent with
  | .ok (account, _) => l.set me account
  | .error _ => l

/-- The call does not abort; if it returns, exactly the lamports have moved, and an initialized
account that is not emptied keeps the minimum balance and its nonce; if it fails, nothing has
changed. -/
def WithdrawsExactly (o : Overflow) (l : ByteLedger) (me dst : Pubkey) (lamports : Nat)
    (recentBlockhashes : List Entry) (rent : Rent) (signers : Finset Pubkey) : Prop :=
  Returns (withdrawNonceAccount o l me dst lamports recentBlockhashes rent signers)
    (fun l' => l.Transfer l' me dst lamports ∧
      ∀ data, readNonceState (l.get me).data = some (.initialized data) →
        lamports ≠ (l.get me).lamports →
        rent.minimumBalance (l.get me).data.length ≤ (l'.get me).lamports ∧
          (l'.get me).data = (l.get me).data)
    fun fault => (∃ e, fault = .error e) ∧
      ∀ key, (ledgerOnError o l me lamports recentBlockhashes rent).get key = l.get key

/-- When a withdrawal from an initialized nonce account is exact.  For the whole balance there must
be a recent blockhash, and it is the stored one or the authority has signed; otherwise the sum of
the guard is a `u64` or has wrapped to no avail. -/
def Withdrawable (o : Overflow) (l : ByteLedger) (me dst : Pubkey) (lamports : Nat)
    (recentBlockhashes : List Entry)
    (rent : Rent) (signers : Finset Pubkey) (data : NonceData) : Prop :=
  let balance := (l.get me).lamports
  let minBalance := rent.minimumBalance (l.get me).data.length
  if lamports = balance then
    ∃ recent ∈ recentBlockhashes.head?, data.blockhash = recent.blockhash ∨ data.authority ∈ signers
  else lamports + minBalance < U64 ∨ o = .wrapping ∧ (balance < (lamports + minBalance) % U64 ∨
    data.authority ∉ signers ∨ dst = me ∧ lamports ≤ balance ∧ minBalance ≤ balance)

section

variable {o : Overflow} {dst signer : Pubkey} {bytes : List UInt8}

theorem readNonceState_uninitialized (h : 8 ≤ bytes.length) :
    readNonceState (writeAt bytes 0 (nonceStateBytes .uninitialized)) = some .uninitialized := by
  have hlen : (writeAt bytes 0 (nonceStateBytes .uninitialized)).length = bytes.length :=
    length_writeAt h
  unfold readNonceState
  rw [if_neg (by omega)]
  rfl

/-- Moving lamports fails in no other way than by an abort. -/
theorem moveLamports_ne_error {src : Pubkey} {n : Nat} (e : InstructionError) :
    moveLamports o l src dst n ≠ .error (.error e) := by
  unfold moveLamports
  cases subU64 o (l.get src).lamports n with
  | error => nofun
  | ok taken =>
    rw [liftPanic_ok, ok_bind]
    dsimp only
    generalize addU64 o _ n = given
    cases given <;> nofun

theorem withdrawsExactly_of_error {fault : Fault InstructionError}
    (hrun : withdrawSigner o me (l.get me) lamports recentBlockhashes rent = .error fault) :
    WithdrawsExactly o l me dst lamports recentBlockhashes rent signers ↔
      ∃ e, fault = .error e := by
  unfold WithdrawsExactly withdrawNonceAccount ledgerOnError
  rw [hrun]
  exact and_iff_left fun _ => rfl

variable (hrun : withdrawSigner o me (l.get me) lamports recentBlockhashes rent
  = .ok ({ l.get me with data := bytes }, signer))
include hrun

/-- Without the signature the data must not have been written. -/
theorem withdrawsExactly_of_unsigned (hnot : signer ∉ signers) :
    WithdrawsExactly o l me dst lamports recentBlockhashes rent signers ↔
      bytes = (l.get me).data := by
  unfold WithdrawsExactly withdrawNonceAccount ledgerOnError
  rw [hrun, ok_bind]
  dsimp only
  rw [if_pos hnot]
  refine ⟨fun h => ?_, fun h => ⟨⟨_, rfl⟩, fun key => ?_⟩⟩
  · rw [← h.2 me, Ledger.get_set_self]
  · rw [h, Ledger.get_set]
    split
    · rename_i heq
      rw [heq]
    · rfl

theorem withdrawsExactly_of_signed (hfit : l.lamports < U64) (hsigned : signer ∈ signers)
    (hkeeps : lamports ≠ (l.get me).lamports → bytes = (l.get me).data) :
    WithdrawsExactly o l me dst lamports recentBlockhashes rent signers ↔
      lamports ≤ (l.get me).lamports ∧
      ∀ data, readNonceState (l.get me).data = some (.initialized data) →
        lamports ≠ (l.get me).lamports →
        lamports + rent.minimumBalance (l.get me).data.length ≤ (l.get me).lamports ∨
          dst = me ∧ rent.minimumBalance (l.get me).data.length ≤ (l.get me).lamports := by
  unfold WithdrawsExactly withdrawNonceAccount
  rw [hrun, ok_bind]
  dsimp only
  rw [if_neg (not_not.mpr hsigned)]
  have hself := l.get_set_self me { l.get me with data := bytes }
  by_cases hle : lamports ≤ (l.get me).lamports
  · have hsupply : (l.set me { l.get me with data := bytes }).lamports = l.lamports :=
      Nat.add_right_cancel (l.lamports_set me { l.get me with data := bytes })
    obtain ⟨l', hmove, hmoves⟩ := moveLamports_exact o dst (hsupply.trans_lt hfit)
      (by rw [hself]; exact hle : lamports ≤
        ((l.set me { l.get me with data := bytes }).get me).lamports)
    have hbalance := hmoves.lamports me
    rw [hself, if_pos rfl] at hbalance
    rw [hmove]
    refine ⟨fun h => ⟨hle, fun data hread hne => ?_⟩,
      fun h => ⟨hmoves.toTransfer.of_set_data, fun data hread hne => ?_⟩⟩
    · have hmin := (h.2 data hread hne).1
      by_cases hdst : dst = me
      · rw [if_pos hdst.symm] at hbalance
        exact .inr ⟨hdst, by dsimp only at hbalance; omega⟩
      · rw [if_neg (Ne.symm hdst)] at hbalance
        exact .inl (by dsimp only at hbalance; omega)
    · refine ⟨?_, by rw [hmoves.data, hself, hkeeps hne]⟩
      rcases h.2 data hread hne with hsum | ⟨hdst, hmin⟩
      · dsimp only at hbalance
        split at hbalance <;> omega
      · rw [if_pos hdst.symm] at hbalance
        dsimp only at hbalance
        omega
  · refine ⟨fun h => ?_, fun h => absurd h.1 hle⟩
    -- A call that pays more than there is aborts or wraps.
    cases hmove : moveLamports o (l.set me { l.get me with data := bytes }) me dst lamports with
    | ok l' =>
      rw [hmove] at h
      exact absurd h.1.enough hle
    | error fault =>
      rw [hmove] at h
      obtain ⟨⟨e, rfl⟩, -⟩ := h
      exact absurd hmove (moveLamports_ne_error e)

end

theorem withdrawsExactly_all (o : Overflow) (dst : Pubkey) (hfit : l.lamports < U64)
    {data : NonceData}
    (hread : readNonceState (l.get me).data = some (.initialized data))
    (hall : lamports = (l.get me).lamports) :
    WithdrawsExactly o l me dst lamports recentBlockhashes rent signers ↔
      ∃ recent ∈ recentBlockhashes.head?, data.blockhash = recent.blockhash ∨
        data.authority ∈ signers := by
  have hsigner : withdrawSigner o me (l.get me) lamports recentBlockhashes rent =
      (do
        let recent ← liftPanic (index recentBlockhashes 0)
        if data.blockhash = recent.blockhash then fail notExpired.into
        else do
          let account ← setNonceState (l.get me) .uninitialized
          .ok (account, data.authority)) := by
    unfold withdrawSigner nonceState
    rw [hread, ok_bind]
    exact if_pos hall
  have hlen : 8 ≤ (l.get me).data.length := by
    by_contra hlt
    rw [readNonceState, if_pos (by omega)] at hread
    cases hread
  cases recentBlockhashes with
  | nil =>
    rw [withdrawsExactly_of_error hsigner]
    constructor <;> rintro ⟨_, h⟩
    · cases h
    · cases h.1
  | cons recent rest =>
    have hhead :
        (∃ r ∈ (recent :: rest).head?, data.blockhash = r.blockhash ∨ data.authority ∈ signers) ↔
        data.blockhash = recent.blockhash ∨ data.authority ∈ signers := by simp
    rw [hhead]
    by_cases hblockhash : data.blockhash = recent.blockhash
    · rw [withdrawsExactly_of_error (hsigner.trans (if_pos hblockhash))]
      exact ⟨fun _ => .inl hblockhash, fun _ => ⟨_, rfl⟩⟩
    · have hset : setNonceState (l.get me) .uninitialized
          = .ok { l.get me with
            data := writeAt (l.get me).data 0 (nonceStateBytes .uninitialized) } :=
        if_neg (Nat.not_lt.mpr hlen)
      have hrun : withdrawSigner o me (l.get me) lamports (recent :: rest) rent = .ok
          ({ l.get me with data := writeAt (l.get me).data 0 (nonceStateBytes .uninitialized) },
            data.authority) := by
        refine hsigner.trans ((if_neg hblockhash).trans ?_)
        rw [hset]
        rfl
      by_cases hsigned : data.authority ∈ signers
      · rw [withdrawsExactly_of_signed hrun hfit hsigned fun hne => absurd hall hne]
        exact ⟨fun _ => .inr hsigned, fun _ => ⟨hall.le, fun _ _ hne => absurd hall hne⟩⟩
      · rw [withdrawsExactly_of_unsigned hrun hsigned]
        refine ⟨fun heq => ?_, fun h => (h.elim hblockhash hsigned).elim⟩
        -- The nonce is lost.
        have huninitialized := readNonceState_uninitialized hlen
        rw [heq, hread] at huninitialized
        cases huninitialized

section Part

variable {o : Overflow} {data : NonceData}
  (hread : readNonceState (l.get me).data = some (.initialized data))
  (hpart : lamports ≠ (l.get me).lamports)
include hread hpart

theorem withdrawSigner_part : withdrawSigner o me (l.get me) lamports recentBlockhashes rent =
    (do
      let needed ← liftPanic (addU64 o lamports (rent.minimumBalance (l.get me).data.length))
      if needed > (l.get me).lamports then fail .insufficientFunds
      else .ok (l.get me, data.authority)) := by
  unfold withdrawSigner nonceState
  rw [hread, ok_bind]
  exact if_neg hpart

/-- What passes the guard with the signature is exact if it leaves enough. -/
theorem withdrawsExactly_of_needed {needed : Nat} (dst : Pubkey) (hfit : l.lamports < U64)
    (hneeded : addU64 o lamports (rent.minimumBalance (l.get me).data.length) = .ok needed) :
    WithdrawsExactly o l me dst lamports recentBlockhashes rent signers ↔
      (l.get me).lamports < needed ∨ data.authority ∉ signers ∨ lamports ≤ (l.get me).lamports ∧
        (lamports + rent.minimumBalance (l.get me).data.length ≤ (l.get me).lamports ∨
          dst = me ∧ rent.minimumBalance (l.get me).data.length ≤ (l.get me).lamports) := by
  have hsigner : withdrawSigner o me (l.get me) lamports recentBlockhashes rent =
      if needed > (l.get me).lamports then fail .insufficientFunds
      else .ok (l.get me, data.authority) := by
    rw [withdrawSigner_part hread hpart, hneeded]
    rfl
  by_cases hshort : needed > (l.get me).lamports
  · rw [withdrawsExactly_of_error (hsigner.trans (if_pos hshort))]
    exact ⟨fun _ => .inl hshort, fun _ => ⟨_, rfl⟩⟩
  · have hrun := hsigner.trans (if_neg hshort)
    by_cases hsigned : data.authority ∈ signers
    · rw [withdrawsExactly_of_signed hrun hfit hsigned fun _ => rfl, or_iff_right hshort,
        or_iff_right (not_not.mpr hsigned)]
      exact and_congr_right fun _ => ⟨fun h => h data hread hpart, fun h _ _ _ => h⟩
    · rw [withdrawsExactly_of_unsigned hrun hsigned]
      exact ⟨fun _ => .inr (.inl hsigned), fun _ => rfl⟩

theorem withdrawsExactly_part (o : Overflow) (dst : Pubkey) (hfit : l.lamports < U64) :
    WithdrawsExactly o l me dst lamports recentBlockhashes rent signers ↔
      lamports + rent.minimumBalance (l.get me).data.length < U64 ∨ o = .wrapping ∧
        ((l.get me).lamports < (lamports + rent.minimumBalance (l.get me).data.length) % U64 ∨
          data.authority ∉ signers ∨ dst = me ∧ lamports ≤ (l.get me).lamports ∧
            rent.minimumBalance (l.get me).data.length ≤ (l.get me).lamports) := by
  have hself := (l.get_lamports_le me).trans_lt hfit
  by_cases hlt : lamports + rent.minimumBalance (l.get me).data.length < U64
  · rw [withdrawsExactly_of_needed hread hpart dst hfit (addU64_ok o hlt)]
    refine ⟨fun _ => .inl hlt, fun _ => ?_⟩
    by_cases hle : lamports + rent.minimumBalance (l.get me).data.length ≤ (l.get me).lamports
    · exact .inr (.inr ⟨by omega, .inl hle⟩)
    · exact .inl (by omega)
  · rw [or_iff_right hlt]
    cases o with
    | checked =>
      have hrun : withdrawSigner .checked me (l.get me) lamports recentBlockhashes rent =
          .error (.panic .overflow) := by
        rw [withdrawSigner_part hread hpart, addU64, if_neg hlt]
        rfl
      rw [withdrawsExactly_of_error hrun]
      constructor
      · rintro ⟨_, h⟩
        cases h
      · rintro ⟨h, -⟩
        cases h
    | wrapping =>
      have hmore :
          ¬ lamports + rent.minimumBalance (l.get me).data.length ≤ (l.get me).lamports := by omega
      rw [withdrawsExactly_of_needed hread hpart dst hfit addU64_wrapping, and_iff_right rfl,
        or_iff_right hmore]
      tauto

end Part

end Withdrawals

end Panoptes.SystemProgram
