import Panoptes.Stake.Program

/-!
# The vest program

`programs/vest`: a contract account pays its lamports to a payee month by month, by the time of a
date account, and a terminator may take back what is left.

* `processInstruction` — one instruction.  The contract stays borrowed, so that no other account of
  the instruction can be the contract.
* `Acted` — what an instruction that returns has done to its contract and paid to whom.
* `Obeys` — the rules of a contract in one instruction.

Principal result: `contract_obeys`.
-/

set_option autoImplicit false

namespace Panoptes.VestProgram

open Lib Sdk KeyedAccount Ledger List
open StakeProgram (fail nextKeyedAccount nextKeyedAccount_eq_ok)

/-- `Config1111111111111111111111111111111111111`. -/
def CONFIG_PROGRAM_ID : Pubkey := 0x03064aa3002f74dcc86e43310f0c052af8c5da27f6104019a323efa000000000

structure VestState where
  terminatorPubkey : Pubkey
  payeePubkey : Pubkey
  /-- In seconds. -/
  startDateTime : Int
  datePubkey : Pubkey
  totalLamports : Nat
  redeemedLamports : Nat
  renegedLamports : Nat
  isFullyVested : Bool

inductive VestInstruction where
  | initializeAccount (terminatorPubkey payeePubkey : Pubkey) (startDateTime : Int)
    (datePubkey : Pubkey)
      (totalLamports : Nat)
  | setTerminator (newPubkey : Pubkey)
  | setPayee (newPubkey : Pubkey)
  | redeemTokens
  | terminate
  | renege (lamports : Nat)
  | vestAll

/-- What is taken from `bincode` and `chrono`. -/
structure Env (δ : Type) where
  deserialize : δ → Option VestState
  serialize : VestState → δ → Option δ
  deserialize_serialize : ∀ {state data data'}, serialize state data = some data' →
    deserialize data' = some state
  /-- `get_config_data`: what stands behind the keys of a config account. -/
  configData : δ → Option δ
  /-- The seconds of a `DateConfig`. -/
  dateTime : δ → Option Int
  -- Days are counted from the first of 1970.
  year : Int → Int
  month0 : Int → Nat
  day : Int → Nat
  /-- `Utc.ymd_opt(year, month, day).single()`. -/
  ymdOpt : Int → Nat → Nat → Option Int

section Model

variable {δ : Type} [Inhabited δ] (env : Env δ) (o : Overflow) (l : Ledger δ) (contract : Pubkey)
  (state : VestState)

/-- The loop of `get_month`; below day 0 the subtraction of the days underflows. -/
def latestDay (year : Int) (month0 : Nat) : Nat → Except Panic Int
  | 0 => (env.ymdOpt year (month0 + 1) 0).elim (.error .overflow) .ok
  | day + 1 => (env.ymdOpt year (month0 + 1) (day + 1)).elim (latestDay year month0 day) .ok

def getMonth (start : Int) (n : Nat) : Except Panic Int :=
  latestDay env (env.year start + ((env.month0 start + n) / 12 : Nat))
    ((env.month0 start + n) % 12) (env.day start)

/-- A third after a year, the rest in 24 months. -/
def createVestingSchedule (startDate : Int) (lamports : Nat) : Except Panic (List (Int × Nat)) := do
  let stipend := lamports / 3 + lamports % 3
  let rest := lamports - stipend
  let first ← getMonth env startDate 12
  let monthly ← (range 24).mapM fun n => do
    let dt ← getMonth env startDate (n + 13)
    .ok (dt, rest / 24 + if n < rest % 24 then 1 else 0)
  let schedule := (first, stipend) :: monthly
  let _ ← assert ((schedule.map Prod.snd).sum = lamports)
  .ok schedule

def calcVestedLamports (currentDate : Int) : Except Panic Nat := do
  let afterReneged ← subU64 o state.totalLamports state.renegedLamports
  if state.isFullyVested then .ok afterReneged
  else do
    let schedule ← createVestingSchedule env (state.startDateTime / 86400) state.totalLamports
    let vested ← sumU64 o
      ((schedule.takeWhile fun payment => decide (payment.1 ≤ currentDate)).map Prod.snd).sum
    .ok (min vested afterReneged)

section

variable (rest : List KeyedAccount) (k : KeyedAccount) (expected payee : Pubkey) (lamports : Nat)

def pay (n : Nat) : Except Panic (Ledger δ) := do
  let left ← subU64 o (l.get contract).lamports n
  let paid ← addU64 o (l.get payee).lamports n
  .ok ((l.set contract { l.get contract with lamports := left }).set payee { l.get payee with
    lamports := paid })

def redeemTokens (currentDate : Int) (payee : Pubkey) : Except Panic (VestState × Ledger δ) := do
  let vested ← calcVestedLamports env o state currentDate
  let redeemable := vested - state.redeemedLamports
  let l ← pay o l contract payee redeemable
  let redeemedLamports ← addU64 o state.redeemedLamports redeemable
  .ok ({ state with redeemedLamports }, l)

def renege : Except Panic (VestState × Ledger δ) := do
  let reneged := min (l.get contract).lamports lamports
  let l ← pay o l contract payee reneged
  let renegedLamports ← addU64 o state.renegedLamports reneged
  .ok ({ state with renegedLamports }, l)

/-- `try_account_ref_mut` of an account other than those in use. -/
def borrow (used : List Pubkey) (k : KeyedAccount) : Res InstructionError Unit :=
  if k.key ∈ used then fail .accountBorrowFailed else .ok ()

def verifyAccount : Res InstructionError Unit :=
  -- `VestError::Unauthorized`
  if k.key ≠ expected then fail (.custom 1) else borrow [contract] k

def verifySignedAccount : Res InstructionError Unit :=
  if k.isSigner = false then fail .missingRequiredSignature else verifyAccount contract k expected

/-- The day in a date account. -/
def dateOf (data : δ) : Option Int := ((env.configData data).bind env.dateTime).map (· / 86400)

def verifyDateAccount : Res InstructionError Int := do
  let _ ← borrow [contract] k
  if (l.get k.key).owner ≠ CONFIG_PROGRAM_ID then fail .incorrectProgramId
  else do
    let _ ← verifyAccount contract k expected
    (dateOf env (l.get k.key).data).elim (fail .invalidAccountData) .ok

/-- `Terminate` and `Renege`: without a further account the terminator is paid. -/
def takeBack : Res InstructionError (VestState × Ledger δ) := do
  let (terminator, rest) ← nextKeyedAccount rest
  let _ ← verifySignedAccount contract terminator state.terminatorPubkey
  match rest with
  | [] => liftPanic (renege o l contract state terminator.key lamports)
  | payee :: _ => do
    let _ ← borrow [contract, terminator.key] payee
    liftPanic (renege o l contract state payee.key lamports)

def act : VestInstruction → Res InstructionError (VestState × Ledger δ)
  | .initializeAccount .. => .ok (state, l)
  | .setTerminator newPubkey => do
    let (k, _) ← nextKeyedAccount rest
    let _ ← verifySignedAccount contract k state.terminatorPubkey
    .ok ({ state with terminatorPubkey := newPubkey }, l)
  | .setPayee newPubkey => do
    let (k, _) ← nextKeyedAccount rest
    let _ ← verifySignedAccount contract k state.payeePubkey
    .ok ({ state with payeePubkey := newPubkey }, l)
  | .redeemTokens => do
    let (date, rest) ← nextKeyedAccount rest
    let currentDate ← verifyDateAccount env l contract date state.datePubkey
    let (payee, _) ← nextKeyedAccount rest
    let _ ← verifyAccount contract payee state.payeePubkey
    liftPanic (redeemTokens env o l contract state currentDate payee.key)
  | .terminate => takeBack o l contract state rest (l.get contract).lamports
  | .renege lamports => takeBack o l contract state rest lamports
  | .vestAll => do
    let (k, _) ← nextKeyedAccount rest
    let _ ← verifySignedAccount contract k state.terminatorPubkey
    .ok ({ state with isFullyVested := true }, l)

end

/-- The state that an instruction starts from. -/
def openState (data : δ) : VestInstruction → Res InstructionError VestState
  | .initializeAccount terminator payee start date total =>
    .ok ⟨terminator, payee, start, date, total, 0, 0, false⟩
  | _ => (env.deserialize data).elim (fail .invalidAccountData) .ok

def processInstruction (keyedAccounts : List KeyedAccount) (instruction : VestInstruction) :
    Res InstructionError (Ledger δ) := do
  let (contract, rest) ← nextKeyedAccount keyedAccounts
  let data := (l.get contract.key).data
  let state ← openState env data instruction
  let (state, l) ← act env o l contract.key state rest instruction
  match env.serialize state data with
  | none => fail .accountDataTooSmall
  | some data => .ok (l.set contract.key { l.get contract.key with data })

end Model

/-! ## What one instruction does -/

variable {δ : Type} [Inhabited δ] {env : Env δ} {o : Overflow} {l l' : Ledger δ} {contract : Pubkey}
variable {payee expected : Pubkey} {k : KeyedAccount} {state state' : VestState}
  {keyedAccounts rest : List KeyedAccount} {instruction : VestInstruction}

/-- Only the lamports of two accounts may differ. -/
structure Paid (l : Ledger δ) (contract payee : Pubkey) (l' : Ledger δ) : Prop where
  ne : payee ≠ contract
  frame : ∀ key, key ≠ contract → key ≠ payee → l'.get key = l.get key
  data : ∀ key, (l'.get key).data = (l.get key).data

/-- The parties change by their own signature, and the terms never. -/
structure Keeps (signers : Finset Pubkey) (state state' : VestState) : Prop where
  payee : state'.payeePubkey = state.payeePubkey ∨ state.payeePubkey ∈ signers
  terminator : state'.terminatorPubkey = state.terminatorPubkey ∨ state.terminatorPubkey ∈ signers
  start : state'.startDateTime = state.startDateTime
  date : state'.datePubkey = state.datePubkey
  total : state'.totalLamports = state.totalLamports

/-- A redemption of more than the contract has, in a build without overflow checks. -/
def Overdraws (env : Env δ) (o : Overflow) (l : Ledger δ) (contract : Pubkey) (state : VestState)
    (rest : List KeyedAccount) (instruction : VestInstruction) : Prop :=
  o = .wrapping ∧ instruction = .redeemTokens ∧ ∃ date ∈ rest.head?,
    ∃ currentDate ∈ dateOf env (l.get date.key).data, ∃ vested,
      calcVestedLamports env o state currentDate = .ok vested ∧
      (l.get contract).lamports < vested - state.redeemedLamports

structure Acted (overdraws : Prop) (signers : Finset Pubkey) (l : Ledger δ) (contract : Pubkey)
    (state state' : VestState) (l' : Ledger δ) : Prop extends Keeps signers state state' where
  paid : l' = l ∨ ∃ payee, Paid l contract payee l' ∧
    (payee = state.payeePubkey ∧
      ((l.get contract).lamports < (l'.get contract).lamports → overdraws) ∨
      state.terminatorPubkey ∈ signers ∧ (l'.get contract).lamports ≤ (l.get contract).lamports)

theorem pay_paid {n : Nat} (hne : payee ≠ contract) (h : pay o l contract payee n = .ok l') :
    Paid l contract payee l' := by
  obtain ⟨left, -, h⟩ := bind_eq_ok.mp h
  obtain ⟨paid, -, h⟩ := bind_eq_ok.mp h
  cases h
  refine ⟨hne, fun key hc hp => ?_, fun key => ?_⟩
  · rw [get_set_of_ne _ _ hp, get_set_of_ne _ _ hc]
  · rw [get_set, get_set]
    split_ifs with hp hc
    · rw [hp]
    · rw [hc]
    · rfl

/-- Who pays has more afterwards only if the subtraction wraps. -/
theorem pay_grows {n : Nat} (hne : payee ≠ contract) (h : pay o l contract payee n = .ok l')
    (hgrows : (l.get contract).lamports < (l'.get contract).lamports) :
    o = .wrapping ∧ (l.get contract).lamports < n := by
  obtain ⟨left, hleft, h⟩ := bind_eq_ok.mp h
  obtain ⟨paid, -, h⟩ := bind_eq_ok.mp h
  cases h
  rw [get_set_of_ne _ _ hne.symm, get_set_self] at hgrows
  unfold subU64 at hleft
  split at hleft
  · cases hleft
    dsimp only at hgrows
    omega
  · cases o with
    | checked => cases hleft
    | wrapping => exact ⟨rfl, by omega⟩

theorem verifyAccount_eq_ok (h : verifyAccount contract k expected = .ok ()) :
    k.key = expected ∧ k.key ≠ contract := by
  obtain ⟨hkey, h⟩ := ite_error_eq_ok.mp h
  obtain ⟨hfree, -⟩ := ite_error_eq_ok.mp h
  exact ⟨not_not.mp hkey, fun heq => hfree (mem_singleton.mpr heq)⟩

theorem verifySignedAccount_eq_ok {keyedAccounts : List KeyedAccount} (hk : k ∈ keyedAccounts)
    (h : verifySignedAccount contract k expected = .ok ()) :
    expected ∈ getSigners keyedAccounts ∧ k.key ≠ contract := by
  obtain ⟨hsigner, h⟩ := ite_error_eq_ok.mp h
  obtain ⟨rfl, hne⟩ := verifyAccount_eq_ok h
  exact ⟨mem_getSigners.mpr ⟨k, hk, Bool.not_eq_false _ ▸ hsigner, rfl⟩, hne⟩

theorem verifyDateAccount_eq_ok {currentDate : Int}
    (h : verifyDateAccount env l contract k expected = .ok currentDate) :
    dateOf env (l.get k.key).data = some currentDate := by
  obtain ⟨_, -, h⟩ := bind_eq_ok.mp h
  obtain ⟨-, h⟩ := ite_error_eq_ok.mp h
  obtain ⟨_, -, h⟩ := bind_eq_ok.mp h
  cases hdate : dateOf env (l.get k.key).data with
  | none => rw [hdate] at h; cases h
  | some => rw [hdate] at h; cases h; rfl

theorem Acted.mono {overdraws : Prop} {signers : Finset Pubkey}
    (h : Acted False signers l contract state state' l') :
    Acted overdraws signers l contract state state' l' :=
  ⟨h.toKeeps, h.paid.imp_right fun ⟨payee, hpaid, hto⟩ =>
    ⟨payee, hpaid, hto.imp_left fun ⟨heq, hgrows⟩ => ⟨heq, fun hlt => (hgrows hlt).elim⟩⟩⟩

section

variable (hrest : rest ⊆ keyedAccounts)
include hrest

theorem takeBack_acted {n : Nat} (h : takeBack o l contract state rest n = .ok (state', l')) :
    Acted False (getSigners keyedAccounts) l contract state state' l' := by
  obtain ⟨⟨terminator, rest⟩, hnext, hrun⟩ := bind_eq_ok.mp h
  obtain rfl := nextKeyedAccount_eq_ok hnext
  obtain ⟨_, hverify, hrun⟩ := bind_eq_ok.mp hrun
  obtain ⟨hsigned, hne⟩ := verifySignedAccount_eq_ok (hrest mem_cons_self) hverify
  have hrenege : ∀ payee ≠ contract, renege o l contract state payee n = .ok (state', l') →
      Acted False (getSigners keyedAccounts) l contract state state' l' := by
    intro payee hne h
    obtain ⟨l₁, hpay, h⟩ := bind_eq_ok.mp h
    obtain ⟨_, -, h⟩ := bind_eq_ok.mp h
    cases h
    refine ⟨⟨.inl rfl, .inl rfl, rfl, rfl, rfl⟩,
      .inr ⟨payee, pay_paid hne hpay, .inr ⟨hsigned, ?_⟩⟩⟩
    -- A contract never reneges more than it has.
    exact Nat.le_of_not_lt fun hgrows => (pay_grows hne hpay hgrows).2.not_ge (min_le_left _ _)
  cases rest with
  | nil => exact hrenege _ hne (liftPanic_eq_ok hrun)
  | cons =>
    obtain ⟨_, hborrow, hrun⟩ := bind_eq_ok.mp hrun
    obtain ⟨hfree, -⟩ := ite_error_eq_ok.mp hborrow
    exact hrenege _ (fun heq => hfree (heq ▸ mem_cons_self)) (liftPanic_eq_ok hrun)

/-- The instructions that one party signs. -/
theorem signed_act {α : Type} {x : Res InstructionError α} {a : α} {party : Pubkey}
    (h : (do let (k, _) ← nextKeyedAccount rest; let _ ← verifySignedAccount contract k party; x) =
      .ok a) :
    party ∈ getSigners keyedAccounts ∧ x = .ok a := by
  obtain ⟨⟨k, _⟩, hnext, hrun⟩ := bind_eq_ok.mp h
  obtain rfl := nextKeyedAccount_eq_ok hnext
  obtain ⟨_, hverify, hrun⟩ := bind_eq_ok.mp hrun
  exact ⟨(verifySignedAccount_eq_ok (hrest mem_cons_self) hverify).1, hrun⟩

theorem act_acted (h : act env o l contract state rest instruction = .ok (state', l')) :
    Acted (Overdraws env o l contract state rest instruction) (getSigners keyedAccounts) l contract
      state state' l' := by
  cases instruction with
  | initializeAccount => cases h; exact ⟨⟨.inl rfl, .inl rfl, rfl, rfl, rfl⟩, .inl rfl⟩
  | terminate => exact (takeBack_acted hrest h).mono
  | renege => exact (takeBack_acted hrest h).mono
  | redeemTokens =>
    obtain ⟨⟨date, _⟩, hnext, hrun⟩ := bind_eq_ok.mp h
    obtain rfl := nextKeyedAccount_eq_ok hnext
    obtain ⟨currentDate, hdate, hrun⟩ := bind_eq_ok.mp hrun
    obtain ⟨_, -, hrun⟩ := bind_eq_ok.mp hrun
    obtain ⟨_, hverify, hrun⟩ := bind_eq_ok.mp hrun
    obtain ⟨hpayee, hne⟩ := verifyAccount_eq_ok hverify
    obtain ⟨vested, hvested, hrun⟩ := bind_eq_ok.mp (liftPanic_eq_ok hrun)
    obtain ⟨_, hpay, hrun⟩ := bind_eq_ok.mp hrun
    obtain ⟨_, -, hrun⟩ := bind_eq_ok.mp hrun
    cases hrun
    refine ⟨⟨.inl rfl, .inl rfl, rfl, rfl, rfl⟩,
      .inr ⟨_, pay_paid hne hpay, .inl ⟨hpayee, fun hgrows => ?_⟩⟩⟩
    obtain ⟨hwrapping, hless⟩ := pay_grows hne hpay hgrows
    exact ⟨hwrapping, rfl, date, rfl, currentDate, verifyDateAccount_eq_ok hdate,
      vested, hvested, hless⟩
  | setTerminator =>
    obtain ⟨hsigned, h⟩ := signed_act hrest h
    cases h
    exact ⟨⟨.inl rfl, .inr hsigned, rfl, rfl, rfl⟩, .inl rfl⟩
  | setPayee =>
    obtain ⟨hsigned, h⟩ := signed_act hrest h
    cases h
    exact ⟨⟨.inr hsigned, .inl rfl, rfl, rfl, rfl⟩, .inl rfl⟩
  | vestAll =>
    obtain ⟨_, h⟩ := signed_act hrest h
    cases h
    exact ⟨⟨.inl rfl, .inl rfl, rfl, rfl, rfl⟩, .inl rfl⟩

end

def VestInstruction.isInitialize : VestInstruction → Bool
  | .initializeAccount .. => true
  | _ => false

omit [Inhabited δ] in
theorem openState_eq_ok {data : δ} (hinit : instruction.isInitialize = false)
    (h : openState env data instruction = .ok state) : env.deserialize data = some state := by
  cases instruction with
  | initializeAccount => cases hinit
  | _ =>
    unfold openState at h
    cases hread : env.deserialize data with
    | none => rw [hread] at h; cases h
    | some => rw [hread] at h; cases h; rfl

/-! ## The rules of a contract -/

/-- What leaves a contract goes to its payee, unless the terminator signed. -/
structure Obeys (signers : Finset Pubkey) (contract : Pubkey) (state state' : VestState)
    (l l' : Ledger δ) : Prop extends Keeps signers state state' where
  lamports : (l'.get contract).lamports < (l.get contract).lamports →
    state.terminatorPubkey ∈ signers ∨
    (l'.get state.payeePubkey).lamports + (l'.get contract).lamports =
      (l.get state.payeePubkey).lamports + (l.get contract).lamports

/-- A successful instruction; the runtime checks the sum of the lamports. -/
def Step (env : Env δ) (o : Overflow) (l : Ledger δ) (keyedAccounts : List KeyedAccount)
    (instruction : VestInstruction) (l' : Ledger δ) : Prop :=
  processInstruction env o l keyedAccounts instruction = .ok l' ∧ l'.lamports = l.lamports

inductive Run (env : Env δ) (o : Overflow) (l : Ledger δ) : Ledger δ → Prop
  | start : Run env o l l
  | step {l₁ l₂ keyedAccounts instruction} : Run env o l l₁ →
    Step env o l₁ keyedAccounts instruction l₂ → Run env o l l₂

/-- An instruction of another kind than `InitializeAccount`, or for another contract that has what
it pays to this one. -/
def Regular (env : Env δ) (o : Overflow) (contract : Pubkey) (l : Ledger δ)
    (keyedAccounts : List KeyedAccount) (instruction : VestInstruction) : Prop :=
  ∀ k rest, keyedAccounts = k :: rest → if k.key = contract then instruction.isInitialize = false
    else ∀ state, openState env (l.get k.key).data instruction = .ok state →
      state.payeePubkey = contract →
      ¬ Overdraws env o l k.key state rest instruction

theorem Paid.sum (h : Paid l contract payee l') (hsum : l'.lamports = l.lamports) :
    (l'.get payee).lamports + (l'.get contract).lamports =
      (l.get payee).lamports + (l.get contract).lamports := by
  have htwo := total_two Account.default_lamports h.ne.symm h.frame
  unfold lamports at hsum
  omega

theorem Step.obeys (h : Step env o l keyedAccounts instruction l')
    (hread : env.deserialize (l.get contract).data = some state) :
    ∃ state', env.deserialize (l'.get contract).data = some state' ∧
      (Regular env o contract l keyedAccounts instruction →
        Obeys (getSigners keyedAccounts) contract state state' l l') := by
  obtain ⟨hprocess, hsum⟩ := h
  obtain ⟨⟨k, rest⟩, hnext, hrun⟩ := bind_eq_ok.mp hprocess
  obtain rfl := nextKeyedAccount_eq_ok hnext
  obtain ⟨opened, hopen, hrun⟩ := bind_eq_ok.mp hrun
  obtain ⟨⟨state', l₁⟩, hact, hrun⟩ := bind_eq_ok.mp hrun
  have hacted := act_acted (subset_cons_self k rest) hact
  dsimp only at hrun
  split at hrun
  · cases hrun
  rename_i data hdata
  cases hrun
  have hset := l₁.lamports_set k.key { l₁.get k.key with data }
  have hsum₁ : l₁.lamports = l.lamports := by dsimp only at hset; omega
  by_cases hk : k.key = contract
  · subst hk
    refine ⟨state', by rw [get_set_self]; exact env.deserialize_serialize hdata, fun hregular => ?_⟩
    have hinit := hregular k rest rfl
    rw [if_pos rfl] at hinit
    obtain rfl := Option.some.inj ((openState_eq_ok hinit hopen).symm.trans hread)
    refine ⟨hacted.toKeeps, fun hless => ?_⟩
    rw [get_set_self] at hless ⊢
    rcases hacted.paid with rfl | ⟨payee, hpaid, ⟨rfl, -⟩ | ⟨hsigned, -⟩⟩
    · exact absurd hless (Nat.lt_irrefl _)
    · rw [get_set_of_ne _ _ hpaid.ne]
      exact .inr (hpaid.sum hsum₁)
    · exact .inl hsigned
  · have hget := l₁.get_set_of_ne { l₁.get k.key with data } (Ne.symm hk)
    rw [hget]
    rcases hacted.paid with rfl | ⟨payee, hpaid, hto⟩
    · exact ⟨state, hread,
        fun _ =>
          ⟨⟨.inl rfl, .inl rfl, rfl, rfl, rfl⟩,
            fun hless => absurd (hget ▸ hless) (Nat.lt_irrefl _)⟩⟩
    · refine ⟨state, hpaid.data _ ▸ hread,
        fun hregular => ⟨⟨.inl rfl, .inl rfl, rfl, rfl, rfl⟩, fun hless => ?_⟩⟩
      have hhas := hregular k rest rfl
      rw [if_neg hk] at hhas
      rw [hget] at hless
      by_cases hp : contract = payee
      · -- What the contract loses the other one gains, which overdraws.
        have hsum := hpaid.sum hsum₁
        rw [← hp] at hsum
        rcases hto with ⟨hpayee, hgrows⟩ | ⟨-, hle⟩
        · exact absurd (hgrows (by omega)) (hhas opened hopen (hpayee.symm.trans hp.symm))
        · omega
      · rw [hpaid.frame _ (Ne.symm hk) hp] at hless
        exact absurd hless (Nat.lt_irrefl _)

/-- **A vesting contract obeys its parties**. -/
theorem contract_obeys (env : Env δ) (o : Overflow) (contract : Pubkey) (l l₁ l₂ : Ledger δ)
    (hinit : (env.deserialize (l.get contract).data).isSome) (hrun : Run env o l l₁)
    (keyedAccounts : List KeyedAccount) (instruction : VestInstruction)
    (hstep : Step env o l₁ keyedAccounts instruction l₂)
    (hregular : Regular env o contract l₁ keyedAccounts instruction) :
    ∃ state state', env.deserialize (l₁.get contract).data = some state ∧
      env.deserialize (l₂.get contract).data = some state' ∧
      Obeys (getSigners keyedAccounts) contract state state' l₁ l₂ := by
  have hheld : ∃ state, env.deserialize (l₁.get contract).data = some state := by
    clear hstep hregular
    induction hrun with
    | start => exact Option.isSome_iff_exists.mp hinit
    | step _ hstep ih =>
      obtain ⟨state, hread⟩ := ih
      obtain ⟨state', hread', -⟩ := hstep.obeys hread
      exact ⟨state', hread'⟩
  obtain ⟨state, hread⟩ := hheld
  obtain ⟨state', hread', hobeys⟩ := hstep.obeys hread
  exact ⟨state, state', hread, hread', hobeys hregular⟩

/-- Months have 30 days. -/
def exampleEnv : Env (Option VestState) :=
  ⟨id, fun state _ => some (some state), fun h => (Option.some.inj h).symm, some,
    fun _ => some 0, (· / 360),
    fun date => (date % 360 / 30).toNat, fun date => (date % 30).toNat + 1,
    fun year month day => if day = 0 ∨ 30 < day then none
      else some (360 * year + 30 * (month - 1) + (day - 1))⟩

/-- Two contracts, the second with the first as its payee and more to redeem than it has, and a date
account. -/
def exampleLedger : Ledger (Option VestState) :=
  (((∅ : Ledger _).set 1 ⟨10, some ⟨2, 3, 0, 5, 10, 0, 0, true⟩, 0, false, 0⟩).set 4
    ⟨0, some ⟨9, 1, 0, 5, U64 - 10, 0, 0, true⟩, 0, false, 0⟩).set 5 ⟨1, none,
      CONFIG_PROGRAM_ID, false, 0⟩

theorem exists_step {n : Nat} {payee : Pubkey}
    (h : (processInstruction exampleEnv o exampleLedger keyedAccounts instruction).toOption.map
      (fun l => (l.lamports, (l.get 1).lamports, (l.get 1).data.map VestState.payeePubkey)) =
        some (11, n, some payee)) :
    ∃ l', Step exampleEnv o exampleLedger keyedAccounts instruction l' ∧ (l'.get 1).lamports = n ∧
      (l'.get 1).data.map VestState.payeePubkey = some payee := by
  cases hrun : processInstruction exampleEnv o exampleLedger keyedAccounts instruction with
  | error =>
    rw [hrun] at h
    cases h
  | ok l' =>
    rw [hrun] at h
    change some (_, _, _) = _ at h
    rw [Option.some_inj, Prod.mk.injEq, Prod.mk.injEq] at h
    obtain ⟨hsum, hn, hpayee⟩ := h
    exact ⟨l', ⟨hrun, hsum.trans (by decide +kernel)⟩, hn, hpayee⟩

def redeemAccounts (contract payee : Pubkey) : List KeyedAccount :=
  [⟨contract, false, true⟩, ⟨5, false, false⟩, ⟨payee, false, true⟩]

/-- The payee redeems all lamports of the first contract. -/
theorem contract_obeys_redeem :
    ∃ l' state state',
      Step exampleEnv .checked exampleLedger (redeemAccounts 1 3) .redeemTokens l' ∧
      exampleEnv.deserialize (l'.get 1).data = some state' ∧
      Obeys (getSigners (redeemAccounts 1 3)) 1 state state' exampleLedger l' := by
  obtain ⟨l', hstep, -⟩ :=
    @exists_step .checked (redeemAccounts 1 3) .redeemTokens 0 3 (by decide +kernel)
  obtain ⟨state, state', -, hread, hobeys⟩ :=
    contract_obeys exampleEnv .checked 1 _ _ _ (by decide +kernel) .start _ _
    hstep (by rintro k rest ⟨⟩; rfl)
  exact ⟨l', state, state', hstep, hread, hobeys⟩

/-- Without any signature `InitializeAccount` gives the first contract another payee, and in a
release build the second contract takes its lamports: both the subtraction and the addition wrap
around. -/
theorem contract_disobeys :
    (∃ l',
      Step exampleEnv .checked exampleLedger [⟨1, false, true⟩] (.initializeAccount 9 9 0 9 0) l' ∧
      (l'.get 1).data.map VestState.payeePubkey = some 9) ∧
    ∃ l', Step exampleEnv .wrapping exampleLedger (redeemAccounts 4 1) .redeemTokens l' ∧
      (l'.get 1).lamports = 0 := by
  obtain ⟨l₁, hinit, -, hpayee⟩ :=
    @exists_step .checked [⟨1, false, true⟩] (.initializeAccount 9 9 0 9 0) 10 9 (by decide +kernel)
  obtain ⟨l₂, hredeem, hzero, -⟩ :=
    @exists_step .wrapping (redeemAccounts 4 1) .redeemTokens 0 3 (by decide +kernel)
  exact ⟨⟨l₁, hinit, hpayee⟩, l₂, hredeem, hzero⟩

end Panoptes.VestProgram
