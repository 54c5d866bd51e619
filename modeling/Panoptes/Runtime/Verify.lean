import Panoptes.Runtime.MessageProcessor

/-!
# Verification of an instruction is sound under nested calls

What an instruction may do to an account is a preorder, `Allowed`: between one recorded state and
the next, read-only accounts do not change and accounts of programs that are not running only gain
lamports.  Each verification is one step of it, so the recorded states stay in relation with those
at the start, however the invocations are nested and whatever they return.

The sum of the balances is different: `verify_and_update` moves the recorded states on before it
compares the sums.  After a failure the recorded states may be unbalanced, so a program that goes on
after an error which is not a `ProgramError` can leave with a balance that was never there.  Loaders
do not go on (`Behaviour.Propagates`); a native program could.

* `Allowed`, `Context.Leads` — the preorder on accounts and on contexts.
* `Behaviour.Propagates` — an invocation error that is no `ProgramError` is passed on.
* `Outcome` — what every invocation and every program keeps.

Principal result: `executeInstruction_sound`.
-/

set_option autoImplicit false

namespace Panoptes.Runtime

open Lib Sdk List

/-! ## One account -/

/-- What programs may do to an account. -/
structure Allowed (programs : List Pubkey) (isWritable : Bool) (pre post : ByteAccount) : Prop where
  readonly : isWritable = false → post.lamports = pre.lamports ∧ post.owner = pre.owner ∧
    post.data = pre.data
  foreign : pre.owner ∉ programs →
    post.owner = pre.owner ∧ post.data = pre.data ∧ pre.lamports ≤ post.lamports

variable {programs : List Pubkey} {env : Env} {invoke : Invocation} {strict : Prop}
  {ctx ctx' ctx₁ : Context} {message : Message} {programId key : Pubkey} {rent : Rent}
  {pre : PreAccount} {pres : List PreAccount} {post : ByteAccount}
  {accounts accounts' : List ByteAccount} {keyedAccounts : List (KeyedAccount × ByteAccount)}
  {result : InstructionResult} {b : Behaviour} {depth index i : Nat} {indices : List Nat}
  {instruction : CompiledInstruction} {cells : Nat → ByteAccount}
  {executables : List (Pubkey × ByteAccount)}

namespace Allowed

variable {isWritable : Bool} {a b c : ByteAccount}

theorem refl (programs : List Pubkey) (isWritable : Bool) (a : ByteAccount) :
    Allowed programs isWritable a a :=
  ⟨fun _ => ⟨rfl, rfl, rfl⟩, fun _ => ⟨rfl, rfl, le_refl _⟩⟩

theorem trans (hab : Allowed programs isWritable a b) (hbc : Allowed programs isWritable b c) :
    Allowed programs isWritable a c := by
  refine ⟨fun hw => ?_, fun ho => ?_⟩
  · obtain ⟨hl, ho, hd⟩ := hab.readonly hw
    obtain ⟨hl', ho', hd'⟩ := hbc.readonly hw
    exact ⟨hl'.trans hl, ho'.trans ho, hd'.trans hd⟩
  · obtain ⟨howner, hdata, hle⟩ := hab.foreign ho
    -- The owner is still the one it was, so the second step does not reach the account either.
    obtain ⟨howner', hdata', hle'⟩ := hbc.foreign (howner ▸ ho)
    exact ⟨howner'.trans howner, hdata'.trans hdata, hle.trans hle'⟩

theorem mono {programs' : List Pubkey} (h : Allowed programs isWritable a b)
    (hsub : programs ⊆ programs') : Allowed programs' isWritable a b :=
  ⟨h.readonly, fun ho => h.foreign fun hmem => ho (hsub hmem)⟩

end Allowed

/-- What a successful `verify` establishes. -/
theorem PreAccount.verify_eq_ok (h : pre.verify programId rent post = .ok ()) :
    Allowed [programId] pre.isWritable pre.account post ∧
      (pre.isWritable = false → post.executable = pre.account.executable) := by
  simp only [PreAccount.verify] at h
  split_ifs at h with howner hspend hreadonly hexecutable hsize hdata hexec hwrite hrent hset hepoch
  refine ⟨⟨fun hw => ?_, fun ho => ?_⟩, fun hw => ?_⟩
  · simp only [hw, true_or, and_true, not_not, Bool.false_eq_true, false_and, and_false,
      not_false_eq_true,
      true_and] at howner hreadonly hdata
    exact ⟨hreadonly.symm, howner.symm, hdata.symm⟩
  · have hne : programId ≠ pre.account.owner := fun heq => ho (by simp [heq])
    simp only [hne, ne_eq, not_false_eq_true, true_or, or_true, and_true, not_not,
      false_and, true_and,
      not_lt] at howner hspend hdata
    exact ⟨howner.symm, hdata.symm, hspend⟩
  · simp only [hw, true_or, and_true, not_not] at hset
    exact hset.symm

/-! ## Results that a program must pass on -/

/-- An error that is not a `ProgramError`. -/
def Fatal : InstructionResult → Prop
  | .ok _ => False
  | .error e => e.isProgramError = false

theorem PreAccount.verify_fatal {e : InstructionError}
    (h : pre.verify programId rent post = .error e) : e.isProgramError = false := by
  simp only [PreAccount.verify] at h
  split_ifs at h <;> cases h <;> rfl

namespace Behaviour

/-- However its invocations end, the program returns an error that is not a `ProgramError`. -/
def Fails : Behaviour → Prop
  | .ret _ result => Fatal result
  | .nativeInvoke _ _ _ next => ∀ result accounts, (next result accounts).Fails
  | .processCross _ _ _ next => ∀ result accounts, (next result accounts).Fails

/-- A program that gets an error which is not a `ProgramError` from an invocation returns such an
error. -/
def Propagates : Behaviour → Prop
  | .ret _ _ => True
  | .nativeInvoke _ _ _ next => ∀ result accounts,
      (next result accounts).Propagates ∧ (Fatal result → (next result accounts).Fails)
  | .processCross _ _ _ next => ∀ result accounts,
      (next result accounts).Propagates ∧ (Fatal result → (next result accounts).Fails)

theorem run_fails (hb : b.Fails) (ctx : Context) : Fatal (b.run env invoke ctx).2.2 := by
  induction b generalizing ctx with
  | ret => exact hb
  | nativeInvoke _ _ _ _ ih => exact ih _ _ (hb _ _) _
  | processCross _ _ _ _ ih => exact ih _ _ (hb _ _) _

end Behaviour

/-- Every program of the environment passes such errors on. -/
structure Env.Propagates (env : Env) : Prop where
  programs : ∀ p ∈ env.programs, ∀ programId keyedAccounts data,
    (p.2 programId keyedAccounts data).Propagates
  nativeLoader : ∀ programId keyedAccounts data,
    (env.nativeLoader programId keyedAccounts data).Propagates

theorem dispatch_propagates (henv : env.Propagates) {data : List UInt8}
    (h : dispatch env programId keyedAccounts data = some b) : b.Propagates := by
  unfold dispatch at h
  split at h
  · cases h
  · split at h
    · split at h
      · rename_i p hfind
        cases h
        exact henv.programs _ (mem_of_find?_eq_some hfind) _ _ _
      · cases h
        exact henv.nativeLoader _ _ _
    · obtain ⟨p, hfind, rfl⟩ := Option.map_eq_some_iff.mp h
      exact henv.programs _ (mem_of_find?_eq_some hfind) _ _ _

/-! ## The recorded states -/

/-- A recorded state and a later one of the same account. -/
structure Kept (programs : List Pubkey) (p q : PreAccount) : Prop where
  isWritable : q.isWritable = p.isWritable
  executable : q.account.executable = p.account.executable
  allowed : Allowed programs p.isWritable p.account q.account

namespace Kept

variable {p q r : PreAccount}

theorem refl (programs : List Pubkey) (p : PreAccount) : Kept programs p p :=
  ⟨rfl, rfl, Allowed.refl _ _ _⟩

theorem trans (hpq : Kept programs p q) (hqr : Kept programs q r) : Kept programs p r :=
  ⟨hqr.isWritable.trans hpq.isWritable, hqr.executable.trans hpq.executable,
    hpq.allowed.trans (hpq.isWritable ▸ hqr.allowed)⟩

theorem update (h : p.verify programId rent post = .ok ()) (hmem : programId ∈ programs) :
    Kept programs p (p.update post) := by
  obtain ⟨hallowed, -⟩ := PreAccount.verify_eq_ok h
  have hallowed := hallowed.mono (by simpa using hmem : [programId] ⊆ programs)
  exact ⟨rfl, rfl, hallowed.readonly, hallowed.foreign⟩

end Kept

def total (pres : List PreAccount) : Nat := (pres.map fun p => p.account.lamports).sum

theorem keptAll_refl (programs : List Pubkey) (pres : List PreAccount) :
    List.Forall₂ (Kept programs) pres pres := forall₂_same.mpr fun p _ => Kept.refl programs p

theorem keptAll_trans {ps qs rs : List PreAccount}
    (hpq : List.Forall₂ (Kept programs) ps qs) (hqr : List.Forall₂ (Kept programs) qs rs) :
    List.Forall₂ (Kept programs) ps rs := by
  induction hpq generalizing rs with
  | nil => exact hqr
  | cons hp _ ih =>
    cases hqr with
    | cons hq hqr => exact .cons (hp.trans hq) (ih hqr)

/-- The balances that visits report agree with the sums before and after them. -/
def SumsAgree (before after : Nat) : Except InstructionError (Nat × Nat) → Prop
  | .error e => e.isProgramError = false
  | .ok (pre, post) => after + pre = before + post

theorem SumsAgree.add {before after : Nat} {result : Except InstructionError (Nat × Nat)}
    (h : SumsAgree before after result) (n : Nat) : SumsAgree (n + before) (n + after) result := by
  cases result with
  | error => exact h
  | ok =>
    simp only [SumsAgree] at h ⊢
    omega

section Visits

variable {result : Except InstructionError (Nat × Nat)} {pres' : List PreAccount}

section

variable (hmem : programId ∈ programs)
include hmem

/-- A visit moves one recorded state on, and reports its balance before and after. -/
theorem visitPre_spec (h : visitPre programId rent key post pres = (pres', result)) :
    List.Forall₂ (Kept programs) pres pres' ∧ SumsAgree (total pres) (total pres') result := by
  induction pres generalizing pres' result with
  | nil =>
    cases h
    exact ⟨.nil, rfl⟩
  | cons pre rest ih =>
    unfold visitPre at h
    split at h
    · split at h
      · rename_i hverify
        cases h
        exact ⟨keptAll_refl _ _, PreAccount.verify_fatal hverify⟩
      · rename_i hverify
        cases h
        refine ⟨.cons (Kept.update hverify hmem) (keptAll_refl _ _), ?_⟩
        simp only [SumsAgree, total, PreAccount.update, map_cons, sum_cons]
        omega
    · cases h
      obtain ⟨hkept, hresult⟩ := ih rfl
      exact ⟨.cons (Kept.refl _ _) hkept, hresult.add pre.account.lamports⟩

theorem verifyVisits_spec {preSum postSum : Nat}
    (h : verifyVisits message accounts programId rent indices preSum postSum pres =
      (pres', result)) :
    List.Forall₂ (Kept programs) pres pres' ∧
      SumsAgree (total pres + preSum) (total pres' + postSum) result := by
  induction indices generalizing preSum postSum pres with
  | nil =>
    cases h
    exact ⟨keptAll_refl _ _, by simp only [SumsAgree]; omega⟩
  | cons i rest ih =>
    unfold verifyVisits verifyVisit at h
    split at h
    · rename_i pres₁ e hvisit
      cases h
      split at hvisit
      · exact visitPre_spec hmem hvisit
      · cases hvisit
        exact ⟨keptAll_refl _ _, rfl⟩
    · rename_i pres₁ a b hvisit
      split at hvisit
      · obtain ⟨hkept, hsum⟩ := visitPre_spec hmem hvisit
        obtain ⟨hkept', hresult⟩ := ih h
        refine ⟨keptAll_trans hkept hkept', ?_⟩
        cases result with
        | error => exact hresult
        | ok =>
          simp only [SumsAgree] at hsum hresult ⊢
          omega
      · cases hvisit

/-- `verify_and_update` keeps the recorded states in relation.  If it succeeds their sum is the
same, and if it fails the error is not a `ProgramError`. -/
theorem verifyAndUpdate_spec {result : InstructionResult}
    (h : verifyAndUpdate message instruction pres accounts programId rent = (pres', result)) :
    List.Forall₂ (Kept programs) pres pres' ∧ (Fatal result ∨ total pres' = total pres) := by
  unfold verifyAndUpdate at h
  split at h
  · rename_i hvisits
    cases h
    obtain ⟨hkept, hfatal⟩ := verifyVisits_spec hmem hvisits
    exact ⟨hkept, .inl hfatal⟩
  · rename_i hvisits
    cases h
    obtain ⟨hkept, hsum⟩ := verifyVisits_spec hmem hvisits
    refine ⟨hkept, ?_⟩
    split
    · exact .inl rfl
    · simp only [SumsAgree] at hsum
      omega

end

end Visits

/-! ## Contexts -/

/-- A context and a later one of the same program: the running programs are the same, and the
recorded states are in relation for the programs that run or were invoked. -/
structure Context.Leads (ctx ctx' : Context) : Prop where
  programIds : ctx'.programIds = ctx.programIds
  invoked : ctx.invoked ⊆ ctx'.invoked
  kept : ∀ programs, ctx.programIds ⊆ programs → ctx'.invoked ⊆ programs →
    List.Forall₂ (Kept programs) ctx.preAccounts ctx'.preAccounts

namespace Context.Leads

theorem refl (ctx : Context) : ctx.Leads ctx := ⟨rfl, fun _ h => h, fun _ _ _ => keptAll_refl _ _⟩

theorem trans {a b c : Context} (hab : a.Leads b) (hbc : b.Leads c) : a.Leads c := by
  refine ⟨hbc.programIds.trans hab.programIds, List.Subset.trans hab.invoked hbc.invoked,
    fun programs hp hi => ?_⟩
  apply keptAll_trans (hab.kept programs hp (List.Subset.trans hbc.invoked hi))
  exact hbc.kept programs (hab.programIds ▸ hp) hi

/-- An invoked program that ran between `push` and `pop`. -/
theorem of_push {ctx₂ : Context} (hpush : ctx.push depth key = .ok ctx₁)
    (h : ctx₁.Leads ctx₂) : ctx.Leads ctx₂.pop := by
  unfold Context.push at hpush
  split_ifs at hpush
  cases hpush
  refine ⟨by simp [Context.pop, h.programIds], ?_, fun programs hp hi => ?_⟩
  · intro p hmem
    exact h.invoked (mem_cons_of_mem _ hmem)
  · refine h.kept programs (fun p hmem => ?_) hi
    rcases mem_cons.mp hmem with rfl | hmem
    · exact hi (h.invoked mem_cons_self)
    · exact hp hmem

end Context.Leads

/-- What a program or an invocation keeps: the relation always and, among programs that pass fatal
errors on, the sum of the recorded balances unless it ends with a fatal error. -/
structure Outcome (strict : Prop) (ctx ctx' : Context) (result : InstructionResult) : Prop where
  leads : ctx.Leads ctx'
  balanced : strict → Fatal result ∨ total ctx'.preAccounts = total ctx.preAccounts

namespace Outcome

variable {a b c : Context}

theorem refl (ctx : Context) (result : InstructionResult) : Outcome strict ctx ctx result :=
  ⟨.refl ctx, fun _ => .inr rfl⟩

theorem trans (hab : Outcome strict a b (.ok ())) (hbc : Outcome strict b c result) :
    Outcome strict a c result := by
  refine ⟨hab.leads.trans hbc.leads, fun hs => ?_⟩
  have heq := (hab.balanced hs).resolve_left id
  exact (hbc.balanced hs).imp_right fun h => h.trans heq

theorem of_ok (h : Outcome strict a b (.ok ())) (result : InstructionResult) :
    Outcome strict a b result :=
  h.trans (.refl b result)

theorem of_push (hpush : a.push depth key = .ok b)
    (h : Outcome strict b c result) : Outcome strict a c.pop result := by
  refine ⟨.of_push hpush h.leads, fun hs => (h.balanced hs).imp_right fun heq => ?_⟩
  unfold Context.push at hpush
  split_ifs at hpush
  cases hpush
  exact heq

end Outcome

theorem Context.verifyAndUpdate_outcome
    (h : ctx.verifyAndUpdate rent message instruction accounts = (ctx', result)) :
    Outcome strict ctx ctx' result := by
  unfold Context.verifyAndUpdate at h
  split at h
  · cases h
    exact .refl _ _
  · rename_i programId rest hids
    cases h
    refine ⟨⟨rfl, fun _ h => h, fun programs hp _ => ?_⟩, fun _ => ?_⟩
    · exact (verifyAndUpdate_spec (hp (hids ▸ mem_cons_self)) rfl).1
    · exact (verifyAndUpdate_spec (mem_singleton_self programId) rfl).2

/-! ## Programs and invocations -/

/-- A way to invoke programs that keeps what an invocation should. -/
def Invocation.Sound (strict : Prop) (invoke : Invocation) : Prop :=
  ∀ ⦃ctx message executables accounts ctx' accounts' result⦄,
    invoke ctx message executables accounts = (ctx', accounts', result) →
      Outcome strict ctx ctx' result

section Programs

theorem nativeInvoke_outcome (hinvoke : Invocation.Sound strict invoke) {instruction : Instruction}
    {signersSeeds : List (List (List UInt8))}
    (h : nativeInvoke env invoke ctx instruction keyedAccounts signersSeeds =
      (ctx', accounts, result)) :
    Outcome strict ctx ctx' result := by
  unfold nativeInvoke at h
  split at h
  · cases h
    exact .refl _ _
  · split at h
    · rename_i hcross
      cases h
      exact hinvoke hcross
    · rename_i hcross
      cases h
      exact (hinvoke hcross).of_ok _

/-- A program goes on after an invocation: a fatal error of the invocation is one of the program. -/
theorem Outcome.andThen {result₁ : InstructionResult} {next : Behaviour}
    (h₁ : Outcome strict ctx ctx₁ result₁)
    (hfails : strict → Fatal result₁ → next.Fails)
    (h : next.run env invoke ctx₁ = (ctx', cells, result))
    (hnext : Outcome strict ctx₁ ctx' result) : Outcome strict ctx ctx' result := by
  refine ⟨h₁.leads.trans hnext.leads, fun hs => ?_⟩
  rcases h₁.balanced hs with hfatal | heq
  · have hfatal' : Fatal (next.run env invoke ctx₁).2.2 :=
      Behaviour.run_fails (hfails hs hfatal) ctx₁
    rw [h] at hfatal'
    exact .inl hfatal'
  · exact (hnext.balanced hs).imp_right fun h => h.trans heq

theorem Behaviour.run_outcome (hinvoke : Invocation.Sound strict invoke)
    (hb : strict → b.Propagates)
    (h : b.run env invoke ctx = (ctx', cells, result)) : Outcome strict ctx ctx' result := by
  -- By induction on the program: each invocation keeps the relation, and the rest of the program
  -- goes on.
  induction b generalizing ctx with
  | ret =>
    cases h
    exact .refl _ _
  | nativeInvoke _ _ _ next ih =>
    refine (nativeInvoke_outcome hinvoke rfl).andThen (fun hs => (hb hs _ _).2) h ?_
    exact ih _ _ (fun hs => (hb hs _ _).1) h
  | processCross _ _ _ next ih =>
    refine Outcome.andThen (hinvoke rfl) (fun hs => (hb hs _ _).2) h ?_
    exact ih _ _ (fun hs => (hb hs _ _).1) h

theorem processInstruction_outcome (hinvoke : Invocation.Sound strict invoke)
    (henv : strict → env.Propagates)
    (h : processInstruction env invoke ctx programId message instruction executables accounts
      = (ctx', accounts', result)) : Outcome strict ctx ctx' result := by
  unfold processInstruction at h
  split at h
  · cases h
    exact .refl _ _
  · rename_i hdispatch
    cases h
    exact Behaviour.run_outcome hinvoke (fun hs => dispatch_propagates (henv hs) hdispatch) rfl

theorem processCrossWith_sound (henv : strict → env.Propagates) (invoke : Option Invocation)
    (hinvoke : ∀ i ∈ invoke, Invocation.Sound strict i) :
    Invocation.Sound strict (processCrossWith env invoke) := by
  intro ctx message executables accounts ctx' accounts' result h
  unfold processCrossWith at h
  split at h
  · cases h
    exact .refl _ _
  split at h
  · cases h
    exact .refl _ _
  split at h
  · rename_i hcaller
    cases h
    exact Context.verifyAndUpdate_outcome hcaller
  · rename_i hcaller
    refine (Context.verifyAndUpdate_outcome hcaller).trans ?_
    split at h
    · cases h
      exact .refl _ _
    · rename_i hpush
      split at h
      · cases h
        exact .of_push hpush (.refl _ _)
      · rename_i inner
        have hinner := hinvoke inner rfl
        split at h
        · rename_i hcallee
          cases h
          exact .of_push hpush (processInstruction_outcome hinner henv hcallee)
        · rename_i hcallee
          cases h
          refine .of_push hpush ((processInstruction_outcome hinner henv hcallee).trans ?_)
          exact Context.verifyAndUpdate_outcome rfl

theorem processCross_sound (henv : strict → env.Propagates) (depth : Nat) :
    Invocation.Sound strict (processCross env depth) := by
  induction depth with
  | zero => exact processCrossWith_sound henv none (by simp)
  | succ depth ih => exact processCrossWith_sound henv _ (by simpa using ih)

end Programs

/-! ## Top-level instructions -/

theorem verifySums_spec {pre : Nat → PreAccount} {a b a' b' : Nat}
    (hkept : List.Forall₂ (fun i p => Kept programs (pre i) p) indices pres)
    (h : verifySums programId rent accounts (pres.zip indices) a b = .ok (a', b')) :
    a' = a + total pres ∧ b' = b + (indices.map fun i => (accountAt accounts i).lamports).sum ∧
      ∀ i ∈ indices, ∃ p, Kept programs (pre i) p ∧
        p.verify programId rent (accountAt accounts i) = .ok () := by
  induction hkept generalizing a b with
  | nil =>
    cases h
    simp [total]
  | @cons i p indices pres hp _ ih =>
    simp only [zip_cons_cons, verifySums] at h
    split at h
    · cases h
    · rename_i hverify
      obtain ⟨ha, hb, hall⟩ := ih h
      refine ⟨?_, ?_, ?_⟩
      · simp only [total, map_cons, sum_cons] at ha ⊢
        omega
      · simp only [map_cons, sum_cons]
        omega
      · intro j hj
        rcases mem_cons.mp hj with rfl | hj
        · exact ⟨p, hp, hverify⟩
        · exact hall j hj

theorem verify_eq_ok (h : verify instruction pres accounts programId rent = .ok ()) :
    ∃ sum, verifySums programId rent accounts (pres.zip instruction.visited) 0 0 =
      .ok (sum, sum) := by
  unfold verify at h
  split at h
  · cases h
  · rename_i a b hsums
    split_ifs at h with hne
    exact ⟨a, by rw [hsums, not_not.mp hne]⟩

/-- The account holds the instructions sysvar, which the runtime writes before each instruction. -/
def IsFixedUp (env : Env) (message : Message) (index : Nat) : Prop :=
  env.instructionsSysvarEnabled = true ∧ message.accountKeys[index]? = some INSTRUCTIONS_ID

theorem accountAt_fixupInstructions {fixed : List ByteAccount}
    (h : fixupInstructions env message accounts index = .ok fixed) (i : Nat) :
    (∃ data, accountAt fixed i = { accountAt accounts i with data }) ∧
      (¬ IsFixedUp env message i → accountAt fixed i = accountAt accounts i) := by
  unfold fixupInstructions at h
  split at h
  · rename_i hsysvar
    simp only [Bool.and_eq_true, contains_iff_mem] at hsysvar
    simp only at h
    split at h
    · cases h
    · rename_i account haccount
      obtain ⟨data, -, h⟩ := bind_eq_ok.mp h
      cases h
      by_cases hi : i = message.accountKeys.idxOf INSTRUCTIONS_ID
      · have hkey : message.accountKeys[i]? = some INSTRUCTIONS_ID := by
          rw [hi, getElem?_eq_getElem (idxOf_lt_length_iff.mpr hsysvar.2), getElem_idxOf]
        rw [← hi] at haccount ⊢
        obtain ⟨hlt, rfl⟩ := List.getElem?_eq_some_iff.mp haccount
        refine ⟨⟨data, ?_⟩, fun hno => absurd ⟨hsysvar.1, hkey⟩ hno⟩
        simp [accountAt, hlt]
      · have heq : accountAt (accounts.set (message.accountKeys.idxOf INSTRUCTIONS_ID)
            { account with data }) i = accountAt accounts i := by
          simp [accountAt, getElem?_set_ne (Ne.symm hi)]
        exact ⟨⟨(accountAt accounts i).data, heq⟩, fun _ => heq⟩
  · cases h
    exact ⟨⟨_, rfl⟩, fun _ => rfl⟩

theorem accountAt_writeCells (hi : i ∉ instruction.accounts) :
    accountAt (writeCells instruction accounts cells) i = accountAt accounts i := by
  unfold accountAt writeCells
  rw [getElem?_mapIdx]
  cases accounts[i]? <;> simp [hi]

theorem accountAt_processInstruction
    (h : processInstruction env invoke ctx programId message instruction executables accounts
      = (ctx', accounts', result)) (hi : i ∉ instruction.accounts) :
    accountAt accounts' i = accountAt accounts i := by
  unfold processInstruction at h
  split at h
  · cases h
    rfl
  · cases h
    exact accountAt_writeCells hi

theorem executeInstruction_eq_ok
    (h : executeInstruction env message instruction executables accounts index
      = .ok (ctx, accounts', .ok ())) :
    ∃ fixed programId, fixupInstructions env message accounts index = .ok fixed ∧
      message.accountKeys[instruction.programIdIndex]? = some programId ∧
      processInstruction env (processCross env env.maxInvokeDepth)
        ⟨[programId], createPreAccounts message instruction fixed, []⟩ programId message instruction
        executables fixed = (ctx, accounts', .ok ()) ∧
      verify instruction ctx.preAccounts accounts' programId env.rent = .ok () := by
  obtain ⟨fixed, hfixed, h⟩ := bind_eq_ok.mp h
  obtain ⟨programId, hprogram, h⟩ := bind_eq_ok.mp h
  have hkey : message.accountKeys[instruction.programIdIndex]? = some programId := by
    unfold Lib.index at hprogram
    split at hprogram
    · rename_i heq
      cases hprogram
      exact heq
    · cases hprogram
  refine ⟨fixed, programId, hfixed, hkey, ?_⟩
  simp only at h
  split at h
  · cases h
  · rename_i hprocess
    simp only [Except.ok.injEq, Prod.mk.injEq] at h
    obtain ⟨rfl, rfl, hverify⟩ := h
    exact ⟨hprocess, hverify⟩

/-- The verification of an account that the instruction names, against its state at the start. -/
theorem allowed_of_kept {p q : PreAccount} (hmem : programId ∈ programs) (hkept : Kept programs p q)
    (hverify : q.verify programId rent post = .ok ()) :
    Allowed programs p.isWritable p.account post ∧
      (p.isWritable = false → post.executable = p.account.executable) := by
  obtain ⟨hallowed, hexecutable⟩ := PreAccount.verify_eq_ok hverify
  have hallowed := hallowed.mono (by simpa using hmem : [programId] ⊆ programs)
  refine ⟨hkept.allowed.trans (hkept.isWritable ▸ hallowed), fun hw => ?_⟩
  exact (hexecutable (hkept.isWritable.trans hw)).trans hkept.executable

/-- **An instruction that succeeds keeps to the rules**, whatever its program and the programs it
invokes do.  An account that the message does not mark writable keeps its balance, owner and
executable flag, an account of a program that was not invoked keeps its owner and loses nothing, and
both keep their data unless the runtime itself writes them.  If the programs pass on the errors of
invocations that are not `ProgramError`s, the sum of the balances of the accounts of the instruction
is the same. -/
theorem executeInstruction_sound {env : Env} {message : Message} {instruction : CompiledInstruction}
    {executables : List (Pubkey × ByteAccount)}
    {accounts accounts' : List ByteAccount} {index : Nat}
    {ctx : Context} (h : executeInstruction env message instruction executables accounts index
      = .ok (ctx, accounts', .ok ())) :
    (env.Propagates →
      (instruction.visited.map fun i => (accountAt accounts' i).lamports).sum
        = (instruction.visited.map fun i => (accountAt accounts i).lamports).sum) ∧
    (∀ i, message.isWritable i = false →
      (accountAt accounts' i).lamports = (accountAt accounts i).lamports ∧
      (accountAt accounts' i).owner = (accountAt accounts i).owner ∧
      (accountAt accounts' i).executable = (accountAt accounts i).executable ∧
      (¬ IsFixedUp env message i → (accountAt accounts' i).data = (accountAt accounts i).data)) ∧
    (∀ i, message.accountKeys[instruction.programIdIndex]? ≠ some (accountAt accounts i).owner →
      (accountAt accounts i).owner ∉ ctx.invoked →
      (accountAt accounts' i).owner = (accountAt accounts i).owner ∧
      (accountAt accounts i).lamports ≤ (accountAt accounts' i).lamports ∧
      (¬ IsFixedUp env message i → (accountAt accounts' i).data =
        (accountAt accounts i).data)) := by
  obtain ⟨fixed, programId, hfixed, hprogram, hprocess, hverify⟩ := executeInstruction_eq_ok h
  have hfix := accountAt_fixupInstructions hfixed
  have hlamports (i : Nat) : (accountAt fixed i).lamports = (accountAt accounts i).lamports := by
    rw [(hfix i).1.choose_spec]
  have howner (i : Nat) : (accountAt fixed i).owner = (accountAt accounts i).owner := by
    rw [(hfix i).1.choose_spec]
  have hexecutable (i : Nat) : (accountAt fixed i).executable =
      (accountAt accounts i).executable := by rw [(hfix i).1.choose_spec]
  -- The recorded states at the end are in relation with those at the start.
  have houtcome := processInstruction_outcome (processCross_sound id env.maxInvokeDepth) id hprocess
  have hkept := houtcome.leads.kept (programId :: ctx.invoked) (by simp) (subset_cons_self _ _)
  rw [createPreAccounts, forall₂_map_left_iff] at hkept
  obtain ⟨sum, hsums⟩ := verify_eq_ok hverify
  obtain ⟨hpre, hpost, hall⟩ := verifySums_spec hkept hsums
  have hallowed (i : Nat) :
      Allowed (programId :: ctx.invoked) (message.isWritable i) (accountAt fixed i)
      (accountAt accounts' i) ∧
      (message.isWritable i = false → (accountAt accounts' i).executable =
        (accountAt fixed i).executable) := by
    by_cases hi : i ∈ instruction.accounts
    · obtain ⟨q, hq, hverified⟩ := hall i (mem_eraseDups.mpr hi)
      exact allowed_of_kept mem_cons_self hq hverified
    · rw [accountAt_processInstruction hprocess hi]
      exact ⟨Allowed.refl _ _ _, fun _ => rfl⟩
  refine ⟨fun hstrict => ?_, fun i hw => ?_, fun i hne hinvoked => ?_⟩
  · have htotal := (houtcome.balanced hstrict).resolve_left id
    simp only [total, createPreAccounts, map_map, Function.comp_def, hlamports] at htotal hpre
    omega
  · obtain ⟨hl, ho, hd⟩ := (hallowed i).1.readonly hw
    refine ⟨hl.trans (hlamports i), ho.trans (howner i),
      ((hallowed i).2 hw).trans (hexecutable i), ?_⟩
    intro hfixedUp
    rw [hd, (hfix i).2 hfixedUp]
  · have hforeign : (accountAt fixed i).owner ∉ programId :: ctx.invoked := by
      rw [howner, mem_cons, not_or]
      exact ⟨fun heq => hne (heq ▸ hprogram), hinvoked⟩
    obtain ⟨ho, hd, hle⟩ := (hallowed i).1.foreign hforeign
    refine ⟨ho.trans (howner i), (hlamports i) ▸ hle, ?_⟩
    intro hfixedUp
    rw [hd, (hfix i).2 hfixedUp]

/-! ## Runs -/

/-- An environment with builtin programs only. -/
def exampleEnv (programs : List (Pubkey × Processor)) (instructionsSysvarEnabled : Bool) : Env where
  programs := programs
  nativeLoader := fun _ _ _ => .ret (fun _ => default) (.error .unsupportedProgramId)
  accountDeps := []
  rent := Rent.default
  maxInvokeDepth := 4
  instructionsSysvarEnabled := instructionsSysvarEnabled
  createProgramAddress := fun _ _ => .error (.custom 1)
  programdataAddress := fun _ => .error .invalidAccountData

def programAccount : ByteAccount := ⟨1, [], NATIVE_LOADER_ID, true, 0⟩

/-- A message of program 5 with one writable signer. -/
def exampleMessage (keys : List Pubkey) (readonlyUnsigned : Nat)
    (accounts : List Nat) : Message where
  header := ⟨1, 0, readonlyUnsigned⟩
  accountKeys := keys
  recentBlockhash := 0
  instructions := [⟨keys.length - 1, accounts, []⟩]

/-- A program that moves ten lamports from its first account to its second. -/
def mover : Processor := fun _ keyedAccounts _ =>
  match keyedAccounts with
  | [(_, a), (_, b)] =>
    .ret (fun i => if i = 0 then { a with lamports := a.lamports - 10 }
      else { b with lamports := b.lamports + 10 }) (.ok ())
  | _ => .ret (fun _ => default) (.error .notEnoughAccountKeys)

/-- A program that invokes program 6 on accounts 1 and 2, and returns what it returns. -/
def caller : Processor := fun _ keyedAccounts _ =>
  .nativeInvoke ⟨6, [⟨1, false, true⟩, ⟨2, false, true⟩], []⟩ keyedAccounts []
    fun result accounts =>
    match result with
    | .error e => .ret (fun _ => default) (.error e)
    | .ok () => .ret (accountAt accounts) (.ok ())

theorem exampleEnv_propagates : (exampleEnv [(5, caller), (6, mover)] true).Propagates := by
  refine ⟨fun p hp programId keyedAccounts data => ?_, fun _ _ _ => trivial⟩
  simp only [exampleEnv, mem_cons, not_mem_nil, or_false] at hp
  rcases hp with rfl | rfl
  · intro result accounts
    cases result with
    | error => exact ⟨trivial, id⟩
    | ok => exact ⟨trivial, False.elim⟩
  · simp only [mover]
    split <;> trivial

/-- An account of program 6 gives ten lamports to one of program 5 in an invocation. -/
theorem executeInstruction_sound_transfer : ∃ ctx,
    executeInstruction (exampleEnv [(5, caller), (6, mover)] true)
        (exampleMessage [1, 2, 6, 5] 2 [0, 1, 2]) ⟨3, [0, 1, 2], []⟩ [(5, programAccount)]
        [⟨100, [], 6, false, 0⟩, ⟨0, [], 5, false, 0⟩, programAccount, programAccount] 0
      = .ok (ctx, [⟨90, [], 6, false, 0⟩, ⟨10, [], 5, false, 0⟩, programAccount, programAccount],
        .ok ()) ∧
    (([0, 1, 2] : List Nat).map fun i => (accountAt [⟨90, [], 6, false, 0⟩, ⟨10, [], 5, false, 0⟩,
        programAccount, programAccount] i).lamports).sum
      = (([0, 1, 2] : List Nat).map fun i =>
        (accountAt [⟨100, [], 6, false, 0⟩, ⟨0, [], 5, false, 0⟩,
        programAccount, programAccount] i).lamports).sum := by
  have hrun : executeInstruction (exampleEnv [(5, caller), (6, mover)] true)
      (exampleMessage [1, 2, 6, 5] 2 [0, 1, 2]) ⟨3, [0, 1, 2], []⟩ [(5, programAccount)]
      [⟨100, [], 6, false, 0⟩, ⟨0, [], 5, false, 0⟩, programAccount, programAccount] 0
      = .ok (⟨[5], [⟨1, true, true, ⟨90, [], 6, false, 0⟩⟩, ⟨2, false, true, ⟨10, [], 5, false, 0⟩⟩,
          ⟨6, false, false, programAccount⟩], [6]⟩,
        [⟨90, [], 6, false, 0⟩, ⟨10, [], 5, false, 0⟩, programAccount, programAccount],
          .ok ()) := by
    decide +kernel
  exact ⟨_, hrun, (executeInstruction_sound hrun).1 exampleEnv_propagates⟩

/-- A program that raises the balance of account 1 by 50, makes an invocation and ignores its
error. -/
def inflater : Processor := fun _ keyedAccounts _ =>
  let raised := keyedAccounts.map fun (k, a) =>
    (k, if k.key = 1 then { a with lamports := a.lamports + 50 } else a)
  .nativeInvoke ⟨6, [⟨1, false, true⟩], []⟩ raised [] fun _ _ =>
    .ret (accountAt (raised.map Prod.snd)) (.ok ())

def idle : Processor :=
  fun _ keyedAccounts _ => .ret (accountAt (keyedAccounts.map Prod.snd)) (.ok ())

/-- **Lamports from nothing, and a read-only account that changes.**  The recorded balance of
account 1 is moved on to 150 before the invocation fails with `UnbalancedInstruction`, so that the
final verification compares 150 with 150.  And the index of the instruction is stored in the
instructions sysvar. -/
theorem executeInstruction_unbalanced :
    (∃ ctx, executeInstruction (exampleEnv [(5, inflater), (6, idle)] true)
        (exampleMessage [1, 6, 5] 2 [0, 1]) ⟨2, [0, 1], []⟩ [(5, programAccount)]
        [⟨100, [], 5, false, 0⟩, programAccount, programAccount] 0
      = .ok (ctx, [⟨150, [], 5, false, 0⟩, programAccount, programAccount], .ok ())) ∧
    (∃ ctx, executeInstruction (exampleEnv [(5, idle)] true)
        (exampleMessage [1, INSTRUCTIONS_ID, 5] 2 [0, 1]) ⟨2, [0, 1], []⟩ [(5, programAccount)]
        [⟨100, [], 5, false, 0⟩, ⟨1, [0, 0], 7, false, 0⟩, programAccount] 1
      = .ok (ctx, [⟨100, [], 5, false, 0⟩, ⟨1, [1, 0], 7, false, 0⟩, programAccount], .ok ())) ∧
    (exampleMessage [1, INSTRUCTIONS_ID, 5] 2 [0, 1]).isWritable 1 = false := by
  refine ⟨⟨⟨[5], [⟨1, true, true, ⟨150, [], 5, false, 0⟩⟩, ⟨6, false, false, programAccount⟩], []⟩,
    ?_⟩,
    ⟨⟨[5], [⟨1, true, true, ⟨100, [], 5, false, 0⟩⟩,
      ⟨INSTRUCTIONS_ID, false, false, ⟨1, [1, 0], 7, false, 0⟩⟩], []⟩, ?_⟩, ?_⟩
  · decide +kernel
  · decide +kernel
  · decide +kernel

end Panoptes.Runtime
