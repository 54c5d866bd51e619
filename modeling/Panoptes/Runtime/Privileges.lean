import Panoptes.Sdk.Message

/-!
# Privileges of a cross-program invocation

`MessageProcessor::create_message` of `runtime/src/message_processor.rs` checks the metas of an
instruction one by one against the accounts of the caller, and compiles the instruction to a
message.  What the callee may do is then read off the header of the message by position.

A key that is signed by a read-only meta and made writable by an unsigned one is counted as writable
but stands among the read-only signers, where its first meta put it.  The boundary in the header
moves by one for each such key, and the keys that come first move across it.

* `createMessage`, `NoEscalation` — the function, and what its check is for.
* `isWritable_new_iff` — which positions of the message are writable.

Principal result: `createMessage_noEscalation_iff`, the exact condition under which the message
gains no privilege.
-/

set_option autoImplicit false

namespace Panoptes.Runtime

open Lib Sdk List Message

section

variable (keyedAccounts : List KeyedAccount) (key : Pubkey) (signers : List Pubkey)

/-- The check of one meta: the caller has the account, and the privileges that the meta asks for. -/
def checkMeta (m : AccountMeta) : Except InstructionError Unit :=
  match keyedAccounts.find? fun k => k.key = m.pubkey with
  | none => .error .missingAccount
  | some k =>
    if m.isWritable && !k.isWritable then .error .privilegeEscalation
    else if m.isSigner && !(k.signerKey.isSome || decide (m.pubkey ∈ signers)) then
      .error .privilegeEscalation
    else .ok ()

/-- `MessageProcessor::create_message`: the message, the program and its position. -/
def createMessage (instruction : Instruction) (keyedAccounts : List KeyedAccount)
    (signers : List Pubkey) : Except InstructionError (Message × Pubkey × Nat) := do
  instruction.accounts.forM (checkMeta keyedAccounts signers)
  if keyedAccounts.any fun k => k.key = instruction.programId then
    let message := new [instruction] none
    .ok (message, instruction.programId, position message.accountKeys instruction.programId)
  else .error .missingAccount

def WritableIn : Prop :=
  ∃ k ∈ keyedAccounts, k.key = key ∧ k.isWritable = true

def SignerIn : Prop :=
  ∃ k ∈ keyedAccounts, k.key = key ∧ k.isSigner = true

end

/-- Every key that signs in the message signs in the caller or is derived, and every key that is
writable in the message is writable in the caller. -/
def NoEscalation (message : Message) (keyedAccounts : List KeyedAccount)
    (signers : List Pubkey) : Prop :=
  ∀ i key, message.accountKeys[i]? = some key →
    (message.isSigner i = true → SignerIn keyedAccounts key ∨ key ∈ signers) ∧
    (message.isWritable i = true → WritableIn keyedAccounts key)

/-! ## The check -/

variable {keyedAccounts : List KeyedAccount} {signers : List Pubkey} {ix : Instruction}

/-- What the check of a meta establishes. -/
structure Granted (keyedAccounts : List KeyedAccount) (signers : List Pubkey)
    (m : AccountMeta) : Prop where
  mem : ∃ k ∈ keyedAccounts, k.key = m.pubkey
  writable : m.isWritable = true → WritableIn keyedAccounts m.pubkey
  signer : m.isSigner = true → SignerIn keyedAccounts m.pubkey ∨ m.pubkey ∈ signers

theorem checkMeta_eq_ok {m : AccountMeta} {u : Unit}
    (h : checkMeta keyedAccounts signers m = .ok u) : Granted keyedAccounts signers m := by
  unfold checkMeta at h
  split at h
  · cases h
  · rename_i k hfind
    have hk := mem_of_find?_eq_some hfind
    have hkey : k.key = m.pubkey := by simpa using find?_some hfind
    obtain ⟨hwritable, h⟩ := ite_error_eq_ok.mp h
    obtain ⟨hsigner, h⟩ := ite_error_eq_ok.mp h
    refine ⟨⟨k, hk, hkey⟩, fun hw => ⟨k, hk, hkey, ?_⟩, fun hs => ?_⟩
    · simpa [hw] using hwritable
    · simp only [hs, Bool.true_and, Bool.not_eq_true', Bool.or_eq_false_iff, not_and,
        decide_eq_false_iff_not, not_not] at hsigner
      cases hsigned : k.isSigner with
      | true => exact .inl ⟨k, hk, hkey, hsigned⟩
      | false => exact .inr (hsigner (by simp [KeyedAccount.signerKey, hsigned]))

theorem forM_eq_ok {ε α : Type} {f : α → Except ε Unit} {l : List α} {u : Unit}
    (h : l.forM f = .ok u) : ∀ a ∈ l, f a = .ok () := by
  induction l with
  | nil => simp
  | cons a l ih =>
    obtain ⟨⟨⟩, ha, h⟩ := bind_eq_ok.mp h
    intro b hb
    rcases mem_cons.mp hb with rfl | hb
    · exact ha
    · exact ih h b hb

theorem createMessage_eq_ok {instruction : Instruction} {message : Message}
    {programId : Pubkey} {index : Nat}
    (h : createMessage instruction keyedAccounts signers = .ok (message, programId, index)) :
    message = new [instruction] none ∧
      (∀ m ∈ instruction.accounts, Granted keyedAccounts signers m) ∧
      ∃ k ∈ keyedAccounts, k.key = instruction.programId := by
  obtain ⟨_, hcheck, h⟩ := bind_eq_ok.mp h
  obtain ⟨hprogram, h⟩ := ite_eq_ok.mp h
  cases h
  refine ⟨rfl, fun m hm => checkMeta_eq_ok (forM_eq_ok hcheck m hm), ?_⟩
  simpa using hprogram

/-! ## The metas of the program are neither signed nor writable -/

section

variable (ix : Instruction)

theorem allMetas_single : allMetas [ix] = ix.accounts ++ [⟨ix.programId, false, false⟩] := by
  simp [allMetas, getProgramIds, eraseDups_cons]

theorem keysWith_allMetas (writable : Bool) :
    keysWith (allMetas [ix]) true writable = keysWith ix.accounts true writable := by
  simp [allMetas_single, keysWith, metasWith]

theorem readonlySigners_allMetas :
    readonlySigners (allMetas [ix]) = readonlySigners ix.accounts := by
  rw [readonlySigners, keysWith_allMetas, keysWith_allMetas, readonlySigners]

theorem writableBy_allMetas (key : Pubkey) :
    writableBy (allMetas [ix]) key = writableBy ix.accounts key := by
  simp [allMetas_single, writableBy]

theorem signedBy_allMetas (key : Pubkey) :
    signedBy (allMetas [ix]) key = signedBy ix.accounts key := by
  simp [allMetas_single, signedBy]

end

/-! ## Positions -/

theorem length_keys (metas : List AccountMeta) :
    (writableSigners metas ++ readonlySigners metas).length
        + (writableUnsigned metas ++ readonlyUnsigned metas).length
      = ((sortMetas metas).map AccountMeta.pubkey).eraseDups.length := by
  rw [← signedKeys_eq, ← unsignedKeys_eq, ← filter_eraseDups, ← filter_eraseDups]
  exact (length_eq_length_filter_add (signedBy metas)).symm

theorem length_keys_le (hgranted : ∀ m ∈ ix.accounts, Granted keyedAccounts signers m)
    (hprogram : ∃ k ∈ keyedAccounts, k.key = ix.programId) :
    ((sortMetas (allMetas [ix])).map AccountMeta.pubkey).eraseDups.length
      ≤ (keyedAccounts.map KeyedAccount.key).toFinset.card := by
  rw [← toFinset_card_of_nodup (nodup_eraseDups _)]
  refine Finset.card_le_card fun key hkey => ?_
  rw [mem_toFinset, mem_eraseDups, mem_map] at hkey
  obtain ⟨m, hm, rfl⟩ := hkey
  rw [sortMetas, mem_insertionSort, allMetas_single, mem_append, mem_singleton] at hm
  rw [mem_toFinset, mem_map]
  rcases hm with hm | rfl
  · exact (hgranted m hm).mem
  · exact hprogram

section

variable (ix : Instruction)
  (hlength : ((sortMetas (allMetas [ix])).map AccountMeta.pubkey).eraseDups.length < U8) (i : Nat)
include hlength

/-- **The writable positions** of a message of one instruction with fewer than 256 keys: those of
the writable signers, as many of the read-only signers as are made writable by another meta, and
those of the writable keys that do not sign. -/
theorem isWritable_new_iff :
    (new [ix] none).isWritable i = true ↔
      i < (writableSigners (allMetas [ix])).length
          + (readonlySigners ix.accounts).countP (writableBy ix.accounts) ∨
        ((writableSigners (allMetas [ix])).length + (readonlySigners ix.accounts).length ≤ i ∧
          i < (writableSigners (allMetas [ix])).length + (readonlySigners ix.accounts).length
            + (writableUnsigned (allMetas [ix])).length) := by
  have htotal := length_keys (allMetas [ix])
  have hcount : (readonlySigners ix.accounts).length = _ :=
    length_eq_countP_add_countP (writableBy ix.accounts)
  have hnot : (readonlySigners ix.accounts).countP (fun key => !writableBy (allMetas [ix]) key)
      = (readonlySigners ix.accounts).countP fun key => ¬ writableBy ix.accounts key = true := by
    simp [writableBy_allMetas]
  rw [← htotal] at hlength
  simp only [isWritable, new, getKeys_single, readonlySigners_allMetas,
    length_append, Bool.or_eq_true, Bool.and_eq_true, decide_eq_true_eq] at hlength ⊢
  simp only [U8] at hlength ⊢
  omega

theorem isSigner_new_iff :
    (new [ix] none).isSigner i = true ↔
      i < (writableSigners (allMetas [ix]) ++ readonlySigners (allMetas [ix])).length := by
  have htotal := length_keys (allMetas [ix])
  simp only [isSigner, new, getKeys_single, decide_eq_true_eq]
  rw [Nat.mod_eq_of_lt (by omega)]

end

/-! ## No escalation -/

section

variable (hgranted : ∀ m ∈ ix.accounts, Granted keyedAccounts signers m)
include hgranted

theorem signer_of_signedBy {key : Pubkey}
    (h : signedBy (allMetas [ix]) key = true) : SignerIn keyedAccounts key ∨ key ∈ signers := by
  rw [signedBy_allMetas] at h
  obtain ⟨m, hm, rfl, hs⟩ := signedBy_iff.mp h
  exact (hgranted m hm).signer hs

theorem writableIn_of_writableBy {key : Pubkey}
    (h : writableBy (allMetas [ix]) key = true) : WritableIn keyedAccounts key := by
  rw [writableBy_allMetas] at h
  obtain ⟨m, hm, rfl, hw⟩ := writableBy_iff.mp h
  exact (hgranted m hm).writable hw

end

/-- The keys that move across the boundary between writable and read-only signers: as many of the
read-only signers, from the first on, as are made writable by an unsigned meta. -/
def shiftedKeys (metas : List AccountMeta) : List Pubkey :=
  (readonlySigners metas).take ((readonlySigners metas).countP (writableBy metas))

/-- **No privilege is gained** exactly when the keys that move across the boundary are writable in
the caller.  The accounts of a transaction have fewer than 256 keys. -/
theorem createMessage_noEscalation_iff {instruction : Instruction}
    {keyedAccounts : List KeyedAccount}
    {signers : List Pubkey} {message : Message} {programId : Pubkey} {index : Nat}
    (hkeys : (keyedAccounts.map KeyedAccount.key).toFinset.card < U8)
    (h : createMessage instruction keyedAccounts signers = .ok (message, programId, index)) :
    NoEscalation message keyedAccounts signers ↔
      ∀ key ∈ shiftedKeys instruction.accounts, WritableIn keyedAccounts key := by
  obtain ⟨rfl, hgranted, hprogram⟩ := createMessage_eq_ok h
  have hlength := (length_keys_le hgranted hprogram).trans_lt hkeys
  have hwritable := isWritable_new_iff instruction hlength
  have hsigner := isSigner_new_iff instruction hlength
  have haccountKeys : (new [instruction] none).accountKeys
      = (writableSigners (allMetas [instruction]) ++ readonlySigners instruction.accounts)
        ++ (writableUnsigned (allMetas [instruction]) ++
          readonlyUnsigned (allMetas [instruction])) := by
    simp only [new, getKeys_single, readonlySigners_allMetas]
  have hle : (readonlySigners instruction.accounts).countP (writableBy instruction.accounts)
      ≤ (readonlySigners instruction.accounts).length := countP_le_length
  constructor
  · intro hno key hkey
    obtain ⟨j, hj, hget⟩ := mem_take_iff_getElem.mp hkey
    have hj' : j < (readonlySigners instruction.accounts).length := by omega
    refine (hno ((writableSigners (allMetas [instruction])).length + j) key ?_).2
      ((hwritable _).mpr (.inl (by omega)))
    rw [haccountKeys, append_assoc, getElem?_append_right (Nat.le_add_right _ _),
      Nat.add_sub_cancel_left, getElem?_append_left hj', getElem?_eq_getElem hj', hget]
  · intro hshifted i key hi
    rw [haccountKeys] at hi
    refine ⟨fun hs => ?_, fun hw => ?_⟩
    · rw [hsigner i, readonlySigners_allMetas] at hs
      rw [getElem?_append_left hs] at hi
      have hmem := mem_of_getElem? hi
      refine signer_of_signedBy hgranted ?_
      rcases mem_append.mp hmem with hmem | hmem
      · exact signedBy_of_keysWith (mem_eraseDups.mp hmem)
      · rw [← readonlySigners_allMetas] at hmem
        have hmem := mem_eraseDups.mp hmem
        exact signedBy_of_keysWith (mem_filter.mp hmem).1
    · rcases (hwritable i).mp hw with hi' | ⟨hlow, hhigh⟩
      · rw [append_assoc] at hi
        by_cases hfirst : i < (writableSigners (allMetas [instruction])).length
        · rw [getElem?_append_left hfirst] at hi
          exact writableIn_of_writableBy hgranted
            (writableBy_of_writableSigners (mem_of_getElem? hi))
        · rw [getElem?_append_right (by omega), getElem?_append_left (by omega)] at hi
          obtain ⟨hlt, hget⟩ := List.getElem?_eq_some_iff.mp hi
          exact hshifted key (List.mem_take_iff_getElem.mpr ⟨_, by omega, hget⟩)
      · rw [List.getElem?_append_right (by simpa using hlow)] at hi
        rw [List.getElem?_append_left (by simp only [List.length_append]; omega)] at hi
        exact writableIn_of_writableBy hgranted
          (writableBy_of_writableUnsigned (mem_of_getElem? hi))

/-- The caller has account 1 read-only and account 2 writable, both signed, and program 3. -/
def callerAccounts : List KeyedAccount := [⟨1, true, false⟩, ⟨2, true, true⟩, ⟨3, false, false⟩]

/-- Both accounts sign by read-only metas, and account 2 is writable by a third one. -/
def promotingInstruction : Instruction where
  programId := 3
  accounts := [⟨1, true, false⟩, ⟨2, true, false⟩, ⟨2, false, true⟩]
  data := []

/-- **A read-only account becomes writable**: the message has one read-only signer, which is the
second, and account 1 is the first. -/
theorem createMessage_escalates : ∃ message,
    createMessage promotingInstruction callerAccounts [] = .ok (message, 3, 2) ∧
      message.accountKeys[0]? = some 1 ∧ message.isWritable 0 = true ∧
      ¬ WritableIn callerAccounts 1 ∧ ¬ NoEscalation message callerAccounts [] := by
  have hnot : ¬ WritableIn callerAccounts 1 := by
    rintro ⟨k, hk, hkey, hw⟩
    simp only [callerAccounts, mem_cons, not_mem_nil, or_false] at hk
    rcases hk with rfl | rfl | rfl
    · cases hw
    · exact absurd hkey (by decide)
    · cases hw
  refine ⟨new [promotingInstruction] none, by decide +kernel, by decide +kernel,
    by decide +kernel, hnot, fun hno => hnot ?_⟩
  exact (hno 0 1 (by decide +kernel)).2 (by decide +kernel)

/-- The same with account 2 first: the key that moves is the one that is writable. -/
def orderedInstruction : Instruction where
  programId := 3
  accounts := [⟨2, true, false⟩, ⟨1, true, false⟩, ⟨2, false, true⟩]
  data := []

theorem createMessage_noEscalation_iff_ordered :
    createMessage orderedInstruction callerAccounts [] = .ok (new [orderedInstruction] none, 3, 2) ∧
      NoEscalation (new [orderedInstruction] none) callerAccounts [] := by
  have hcreate : createMessage orderedInstruction callerAccounts []
      = .ok (new [orderedInstruction] none, 3, 2) := by decide +kernel
  refine ⟨hcreate, (createMessage_noEscalation_iff (by decide +kernel) hcreate).mpr ?_⟩
  have hshifted : shiftedKeys orderedInstruction.accounts = [2] := by decide +kernel
  intro key hkey
  rw [hshifted, mem_singleton] at hkey
  exact hkey ▸ ⟨⟨2, true, true⟩, by decide, rfl, rfl⟩

end Panoptes.Runtime
