import Panoptes.Runtime.Privileges
import Panoptes.Sdk.Rent

/-!
# The message processor

`runtime/src/message_processor.rs`: how an instruction is executed and verified, with the
cross-program invocations its program makes.  Account data are bytes here.

A program is a tree of what it does: it returns, or it invokes another program and goes on with the
outcome.  What it keeps in the accounts it was given while it runs is its own affair; the runtime
sees the accounts it passes to an invocation and what it leaves in its own accounts when it returns.
Logs, compute budget and borrows are left out: they can only make an instruction fail.

* `PreAccount.verify`, `PreAccount.update` — what a program may do to an account.
* `verifyAndUpdate` — the check before and after an invocation, which also moves the recorded states
  on.
* `Behaviour` — a program; `Behaviour.run` runs it for a way to invoke others.
* `processCross`, `nativeInvoke` — the two ways to invoke, to a depth.
* `executeInstruction` — a top-level instruction.
-/

set_option autoImplicit false

namespace Panoptes.Sdk

/-- `NativeLoader1111111111111111111111111111111`. -/
def NATIVE_LOADER_ID : Pubkey := 0x058784bf148ba4282fb012574888a9f153a07dadf765c0455c9a970380000000

/-- `BPFLoaderUpgradeab1e11111111111111111111111`. -/
def BPF_LOADER_UPGRADEABLE_ID : Pubkey :=
  0x02a8f6914e88a1b0e210153ef763ae2b00c2b93d16c124d2c0537a1004800000

/-- Whether `ProgramError::try_from` succeeds: the errors that a program may see of one it
invoked. -/
def InstructionError.isProgramError : InstructionError → Bool
  | .custom
    _ | .invalidArgument | .invalidInstructionData | .invalidAccountData | .accountDataTooSmall
  | .insufficientFunds | .incorrectProgramId | .missingRequiredSignature
    | .accountAlreadyInitialized
  | .uninitializedAccount | .notEnoughAccountKeys | .accountBorrowFailed | .maxSeedLengthExceeded =>
    true
  | _ => false

end Panoptes.Sdk

namespace Panoptes.Runtime

open Lib Sdk

abbrev ByteAccount := Account (List UInt8)

abbrev InstructionResult := Except InstructionError Unit

/-! ## Recorded states -/

/-- The state of an account before an instruction, and the privileges of the instruction over it. -/
structure PreAccount where
  key : Pubkey
  isSigner : Bool
  isWritable : Bool
  account : ByteAccount
  deriving DecidableEq, Repr

namespace PreAccount

def isZeroed (data : List UInt8) : Bool := data.all fun b => b = 0

def verify (pre : PreAccount) (programId : Pubkey) (rent : Rent) (post : ByteAccount) :
    InstructionResult :=
  let account := pre.account
  -- Only the owner may change the owner, of a writable account with zeroed data.
  if account.owner ≠ post.owner ∧ (pre.isWritable = false ∨ account.executable = true
      ∨ programId ≠ account.owner ∨ isZeroed post.data = false) then .error .modifiedProgramId
  -- An account not assigned to the program cannot have its balance decrease.
  else if programId ≠ account.owner ∧ account.lamports > post.lamports then
    .error .externalAccountLamportSpend
  -- The balance of read-only and executable accounts may not change.
  else if account.lamports ≠ post.lamports ∧ pre.isWritable = false then
    .error .readonlyLamportChange
  else if account.lamports ≠ post.lamports ∧ account.executable = true then
    .error .executableLamportChange
  -- Only the system program can change the size of the data of an account it owns.
  else if account.data.length ≠ post.data.length
      ∧ (programId ≠ SYSTEM_PROGRAM_ID ∨ account.owner ≠ SYSTEM_PROGRAM_ID) then
    .error .accountDataSizeChanged
  -- Only the owner may change the data, of a writable account that is not executable.
  else if ¬ (programId = account.owner ∧ pre.isWritable = true ∧ account.executable = false)
      ∧ account.data ≠ post.data then
    if account.executable then .error .executableDataModified
    else if pre.isWritable then .error .externalAccountDataModified
    else .error .readonlyDataModified
  -- The executable flag goes one way only, and the owner sets it.
  else if account.executable ≠ post.executable
      ∧ rent.isExempt post.lamports post.data.length = false then
        .error .executableAccountNotRentExempt
  else if account.executable ≠ post.executable
      ∧ (pre.isWritable = false ∨ account.executable = true ∨ programId ≠ account.owner) then
    .error .executableModified
  else if account.rentEpoch ≠ post.rentEpoch then .error .rentEpochModified
  else .ok ()

/-- `PreAccount::update`: balance, owner and data, but not the executable flag. -/
def update (pre : PreAccount) (post : ByteAccount) : PreAccount :=
  { pre with
    account :=
      { pre.account with lamports := post.lamports, owner := post.owner, data := post.data } }

end PreAccount

/-- One visit of `verify_and_update`: the first recorded state with the key is verified and moved
on; its balance before and after. -/
def visitPre (programId : Pubkey) (rent : Rent) (key : Pubkey) (post : ByteAccount) :
    List PreAccount → List PreAccount × Except InstructionError (Nat × Nat)
  | [] => ([], .error .missingAccount)
  | pre :: rest =>
    if key = pre.key then
      match pre.verify programId rent post with
      | .error e => (pre :: rest, .error e)
      | .ok () => (pre.update post :: rest, .ok (pre.account.lamports, post.lamports))
    else
      let (rest', result) := visitPre programId rent key post rest
      (pre :: rest', result)

/-- The account at a position of a message is visited. -/
def verifyVisit (message : Message) (accounts : List ByteAccount) (programId : Pubkey) (rent : Rent)
    (index : Nat) (pres : List PreAccount) :
    List PreAccount × Except InstructionError (Nat × Nat) :=
  match message.accountKeys[index]?, accounts[index]? with
  | some key, some account => visitPre programId rent key account pres
  | _, _ => (pres, .error .missingAccount)

/-- All visits, with the sums of the balances before and after. -/
def verifyVisits (message : Message) (accounts : List ByteAccount)
    (programId : Pubkey) (rent : Rent) :
    List Nat → Nat → Nat → List PreAccount → List PreAccount × Except InstructionError (Nat × Nat)
  | [], preSum, postSum, pres => (pres, .ok (preSum, postSum))
  | index :: rest, preSum, postSum, pres =>
    match verifyVisit message accounts programId rent index pres with
    | (pres, .error e) => (pres, .error e)
    | (pres, .ok (pre, post)) =>
      verifyVisits message accounts programId rent rest (preSum + pre) (postSum + post) pres

/-- `MessageProcessor::verify_and_update`: the recorded states as they are left, also by a
failure. -/
def verifyAndUpdate (message : Message) (instruction : CompiledInstruction) (pres : List PreAccount)
    (accounts : List ByteAccount) (programId : Pubkey) (rent : Rent) :
    List PreAccount × InstructionResult :=
  match verifyVisits message accounts programId rent
      (instruction.visited ++ [instruction.programIdIndex]) 0 0 pres with
  | (pres, .error e) => (pres, .error e)
  | (pres, .ok (preSum, postSum)) =>
    (pres, if preSum ≠ postSum then .error .unbalancedInstruction else .ok ())

/-! ## Programs -/

/-- What a program does, by the outcomes of the invocations it makes. -/
inductive Behaviour where
  /-- It returns, and leaves an account in each cell it was given, by position in the message. -/
  | ret (cells : Nat → ByteAccount) (result : InstructionResult)
  /-- `MessageProcessor::native_invoke`; it sees the result and the accounts that were copied
  back. -/
  | nativeInvoke (instruction : Instruction) (keyedAccounts : List (KeyedAccount × ByteAccount))
      (signersSeeds : List (List (List UInt8))) (next : InstructionResult →
        List ByteAccount → Behaviour)
  /-- `MessageProcessor::process_cross_program_instruction`, as the loaders call it. -/
  | processCross (message : Message) (executableAccounts : List (Pubkey × ByteAccount))
      (accounts : List ByteAccount) (next : InstructionResult → List ByteAccount → Behaviour)

abbrev Processor := Pubkey → List (KeyedAccount × ByteAccount) → List UInt8 → Behaviour

/-- What stays the same while a message is processed. -/
structure Env where
  /-- The builtin programs and loaders. -/
  programs : List (Pubkey × Processor)
  /-- The native loader. -/
  nativeLoader : Processor
  accountDeps : List (Pubkey × ByteAccount)
  rent : Rent
  maxInvokeDepth : Nat
  /-- Whether the feature `instructions_sysvar_enabled` is active. -/
  instructionsSysvarEnabled : Bool
  /-- `Pubkey::create_program_address`. -/
  createProgramAddress : List (List UInt8) → Pubkey → Except InstructionError Pubkey
  /-- The address in an `UpgradeableLoaderState::Program`. -/
  programdataAddress : List UInt8 → Except InstructionError (Option Pubkey)

/-- `ThisInvokeContext`: the programs that are running, the innermost first, and the recorded
states. `invoked` is not in the source: the programs that invocations have started so far. -/
structure Context where
  programIds : List Pubkey
  preAccounts : List PreAccount
  invoked : List Pubkey
  deriving DecidableEq, Repr

namespace Context

def push (ctx : Context) (maxInvokeDepth : Nat) (key : Pubkey) : Except InstructionError Context :=
  if ctx.programIds.length > maxInvokeDepth then .error .callDepth
  -- Only a program that calls itself may be entered again.
  else if key ∈ ctx.programIds ∧ ctx.programIds.head? ≠ some key then .error .reentrancyNotAllowed
  else .ok { ctx with programIds := key :: ctx.programIds, invoked := key :: ctx.invoked }

def pop (ctx : Context) : Context := { ctx with programIds := ctx.programIds.tail }

def verifyAndUpdate (ctx : Context) (rent : Rent) (message : Message)
    (instruction : CompiledInstruction)
    (accounts : List ByteAccount) : Context × InstructionResult :=
  match ctx.programIds with
  | [] => (ctx, .error .genericError)
  | programId :: _ =>
    let (preAccounts, result) :=
      Runtime.verifyAndUpdate message instruction ctx.preAccounts accounts
      programId rent
    ({ ctx with preAccounts }, result)

def getAccount (ctx : Context) (deps : List (Pubkey × ByteAccount)) (key : Pubkey) :
    Option ByteAccount :=
  match ctx.preAccounts.find? fun pre => pre.key = key with
  | some pre => some pre.account
  | none => (deps.find? fun dep => dep.1 = key).map Prod.snd

end Context

/-- A way to invoke a program: `process_cross_program_instruction` on a message, its executable
accounts and its accounts. -/
abbrev Invocation := Context → Message → List (Pubkey × ByteAccount) → List ByteAccount →
  Context × List ByteAccount × InstructionResult

def createKeyedAccounts (message : Message) (instruction : CompiledInstruction)
    (executableAccounts : List (Pubkey × ByteAccount)) (accounts : List ByteAccount) :
    List (KeyedAccount × ByteAccount) :=
  executableAccounts.map (fun (key, account) => (⟨key, false, false⟩, account)) ++
    instruction.accounts.map fun index =>
      (⟨(message.accountKeys[index]?).getD 0, message.isSigner index, message.isWritable index⟩,
        accountAt accounts index)

variable (env : Env)

/-- The entrypoint that `MessageProcessor::process_instruction` calls. -/
def dispatch (programId : Pubkey) (keyedAccounts : List (KeyedAccount × ByteAccount))
    (data : List UInt8) : Option Behaviour :=
  match keyedAccounts with
  | [] => none
  | (root, account) :: rest =>
    if account.owner = NATIVE_LOADER_ID then
      match env.programs.find? fun p => p.1 = root.key with
      | some (_, processor) => some (processor programId rest data)
      | none => some (env.nativeLoader programId keyedAccounts data)
    else
      (env.programs.find? fun p => p.1 = account.owner).map fun p =>
        p.2 programId keyedAccounts data

/-- The accounts after a program returned: only those it was given can change. -/
def writeCells (instruction : CompiledInstruction) (accounts : List ByteAccount)
    (cells : Nat → ByteAccount) : List ByteAccount :=
  accounts.mapIdx fun i account => if i ∈ instruction.accounts then cells i else account

/-! ## Invocations -/

section

variable (invoke : Invocation) (ctx : Context) (programId : Pubkey)

section

variable (instruction : Instruction) (keyedAccounts : List (KeyedAccount × ByteAccount))
  (signersSeeds : List (List (List UInt8)))

/-- Copy the results of an invocation back to the caller: `account_refs` after it. -/
def copyBack (message : Message) :
    Nat → List ByteAccount → List ByteAccount → List ByteAccount × InstructionResult
  | i, account :: accounts, ref :: refs =>
    if message.isWritable i && !account.executable then
      let written := { ref with lamports := account.lamports, owner := account.owner }
      if ref.data.length ≠ account.data.length ∧ ref.data.length ≠ 0 then
        (written :: refs, .error .invalidRealloc)
      else
        let (refs, result) := copyBack message (i + 1) accounts refs
        ({ written with data := account.data } :: refs, result)
    else
      let (refs, result) := copyBack message (i + 1) accounts refs
      (ref :: refs, result)
  | _, _, refs => (refs, .ok ())

/-- The program account of an invocation, and that of its program data. -/
def executablesOf : Except InstructionError (List (Pubkey × ByteAccount)) :=
  match ctx.getAccount env.accountDeps programId with
  | none => .error .missingAccount
  | some account =>
    if account.executable = false then .error .accountNotExecutable
    else if account.owner = BPF_LOADER_UPGRADEABLE_ID then
      match env.programdataAddress account.data with
      | .error e => .error e
      | .ok none => .error .missingAccount
      | .ok (some address) =>
        match ctx.getAccount env.accountDeps address with
        | none => .error .missingAccount
        | some programdata => .ok [(programId, account), (address, programdata)]
    else .ok [(programId, account)]

/-- What `native_invoke` prepares: the message, the executable accounts, and the accounts of the
caller in the order of the message. -/
def prepareInvoke :
    Except InstructionError (Message × List (Pubkey × ByteAccount) × List ByteAccount) := do
  match ctx.programIds with
  | [] => .error .genericError
  | caller :: _ =>
    let signers ← signersSeeds.mapM fun seeds => env.createProgramAddress seeds caller
    let (message, programId, _) ← createMessage instruction (keyedAccounts.map Prod.fst) signers
    let accounts ← message.accountKeys.mapM fun key =>
      match keyedAccounts.find? fun k => k.1.key = key with
      | some k => Except.ok k.2
      | none => .error .missingAccount
    let executables ← executablesOf env ctx programId
    .ok (message, executables, accounts)

def nativeInvoke : Context × List ByteAccount × InstructionResult :=
  match prepareInvoke env ctx instruction keyedAccounts signersSeeds with
  | .error e => (ctx, [], .error e)
  | .ok (message, executables, refs) =>
    match invoke ctx message executables refs with
    | (ctx, _, .error e) => (ctx, refs, .error e)
    | (ctx, accounts, .ok ()) =>
      let (refs, result) := copyBack message 0 accounts refs
      (ctx, refs, result)

end

def Behaviour.run (env : Env) (invoke : Invocation) :
    Behaviour → Context → Context × (Nat → ByteAccount) × InstructionResult
  | .ret cells result, ctx => (ctx, cells, result)
  | .nativeInvoke instruction keyedAccounts signersSeeds next, ctx =>
    let (ctx, accounts, result) :=
      Runtime.nativeInvoke env invoke ctx instruction keyedAccounts signersSeeds
    (next result accounts).run env invoke ctx
  | .processCross message executableAccounts accounts next, ctx =>
    let (ctx, accounts, result) := invoke ctx message executableAccounts accounts
    (next result accounts).run env invoke ctx

/-- `MessageProcessor::process_instruction`: the context and the accounts as the program leaves
them. -/
def processInstruction (message : Message) (instruction : CompiledInstruction)
    (executableAccounts : List (Pubkey × ByteAccount)) (accounts : List ByteAccount) :
    Context × List ByteAccount × InstructionResult :=
  match dispatch env programId (createKeyedAccounts message instruction executableAccounts accounts)
      instruction.data with
  | none => (ctx, accounts, .error .unsupportedProgramId)
  | some behaviour =>
    let (ctx, cells, result) := behaviour.run env invoke ctx
    (ctx, writeCells instruction accounts cells, result)

end

/-- `process_cross_program_instruction`, for a way to invoke programs from the callee; without one
the depth is exhausted.  (A message whose program index is out of range aborts in the source.) -/
def processCrossWith (invoke : Option Invocation) : Invocation :=
  fun ctx message executableAccounts accounts =>
    match message.instructions.head? with
    | none => (ctx, accounts, .error .genericError)
    | some instruction =>
      match message.accountKeys[instruction.programIdIndex]? with
      | none => (ctx, accounts, .error .missingAccount)
      | some programId =>
        -- Verify the calling program.
        match ctx.verifyAndUpdate env.rent message instruction accounts with
        | (ctx, .error e) => (ctx, accounts, .error e)
        | (ctx, .ok ()) =>
          match ctx.push env.maxInvokeDepth programId with
          | .error e => (ctx, accounts, .error e)
          | .ok ctx =>
            match invoke with
            | none => (ctx.pop, accounts, .error .callDepth)
            | some invoke =>
              match processInstruction env invoke ctx programId message instruction
                executableAccounts
                  accounts with
              | (ctx, accounts, .error e) => (ctx.pop, accounts, .error e)
              | (ctx, accounts, .ok ()) =>
                -- Verify the called program.
                let (ctx, result) := ctx.verifyAndUpdate env.rent message instruction accounts
                (ctx.pop, accounts, result)

/-- `MessageProcessor::process_cross_program_instruction`, to a depth.  `push` fails before the
depth `max_invoke_depth` is exhausted. -/
def processCross (env : Env) : Nat → Invocation
  | 0 => processCrossWith env none
  | n + 1 => processCrossWith env (some (processCross env n))

/-! ## Top-level instructions -/

section

variable (message : Message) (instruction : CompiledInstruction) (accounts : List ByteAccount)
  (index : Nat)

def createPreAccounts : List PreAccount :=
  instruction.visited.map fun index =>
    { key := (message.accountKeys[index]?).getD 0
      isSigner := message.isSigner index
      isWritable := message.isWritable index
      account := accountAt accounts index }

/-- The loop of `MessageProcessor::verify`, with the sums of the balances before and after. -/
def verifySums (programId : Pubkey) (rent : Rent) (accounts : List ByteAccount) :
    List (PreAccount × Nat) → Nat → Nat → Except InstructionError (Nat × Nat)
  | [], preSum, postSum => .ok (preSum, postSum)
  | (pre, index) :: rest, preSum, postSum =>
    let post := accountAt accounts index
    match pre.verify programId rent post with
    | .error e => .error e
    | .ok () =>
      verifySums programId rent accounts rest (preSum + pre.account.lamports)
        (postSum + post.lamports)

def verify (pres : List PreAccount) (accounts : List ByteAccount)
    (programId : Pubkey) (rent : Rent) : InstructionResult :=
  match verifySums programId rent accounts (pres.zip instruction.visited) 0 0 with
  | .error e => .error e
  | .ok (preSum, postSum) => if preSum ≠ postSum then .error .unbalancedInstruction else .ok ()

/-- `store_current_index`: the last two bytes, least significant first. -/
def storeCurrentIndex (data : List UInt8) (index : Nat) : Except Panic (List UInt8) :=
  if data.length < 2 then .error .overflow
  else .ok (data.take (data.length - 2) ++ [UInt8.ofNat index, UInt8.ofNat (index / U8)])

/-- The instruction index is stored in the instructions sysvar, if the message has it. -/
def fixupInstructions : Except Panic (List ByteAccount) := do
  if env.instructionsSysvarEnabled && message.accountKeys.contains INSTRUCTIONS_ID then
    let i := message.accountKeys.idxOf INSTRUCTIONS_ID
    match accounts[i]? with
    | none => .error .indexOutOfBounds
    | some account =>
      let data ← storeCurrentIndex account.data index
      .ok (accounts.set i { account with data })
  else .ok accounts

/-- `MessageProcessor::execute_instruction`: the context at the end, the accounts and the result. -/
def executeInstruction (executableAccounts : List (Pubkey × ByteAccount))
    (accounts : List ByteAccount)
    (index : Nat) : Except Panic (Context × List ByteAccount × InstructionResult) := do
  let accounts ← fixupInstructions env message accounts index
  let programId ← Lib.index message.accountKeys instruction.programIdIndex
  let ctx : Context := ⟨[programId], createPreAccounts message instruction accounts, []⟩
  match processInstruction env (processCross env env.maxInvokeDepth) ctx programId
    message instruction
      executableAccounts accounts with
  | (ctx, accounts, .error e) => .ok (ctx, accounts, .error e)
  | (ctx, accounts, .ok ()) =>
    .ok (ctx, accounts, verify instruction ctx.preAccounts accounts programId env.rent)

end

end Panoptes.Runtime
