import Panoptes.Sdk.Account

/-!
# Messages

`sdk/program/src/message.rs` and the instructions of `sdk/program/src/instruction.rs`: how
instructions are compiled to a message, whose header says by position which keys sign and which are
writable.

* `getKeys` — the keys of the instructions: sorted by their flags, without duplicates, with the
  number of read-only keys among the signed and among the unsigned ones.
* `Message.new`, `Message.isSigner`, `Message.isWritable`.
* `metasWith` — the metas with given flags; `sortMetas_eq` says that the sort lines them up.

Principal result: `getKeys_single`, the keys and counts for one instruction, in terms of its metas.
-/

set_option autoImplicit false

namespace Panoptes.Sdk

open Lib List

/-- The number of values of a `u8`. -/
def U8 : Nat := 2 ^ 8

structure AccountMeta where
  pubkey : Pubkey
  isSigner : Bool
  isWritable : Bool
  deriving DecidableEq, Repr

structure Instruction where
  programId : Pubkey
  accounts : List AccountMeta
  data : List UInt8
  deriving DecidableEq, Repr

structure CompiledInstruction where
  programIdIndex : Nat
  accounts : List Nat
  data : List UInt8
  deriving DecidableEq, Repr

/-- The account indices that `visit_each_account` visits: each one once, in order. -/
def CompiledInstruction.visited (i : CompiledInstruction) : List Nat := i.accounts.eraseDups

structure MessageHeader where
  numRequiredSignatures : Nat
  numReadonlySignedAccounts : Nat
  numReadonlyUnsignedAccounts : Nat
  deriving DecidableEq, Repr

structure Message where
  header : MessageHeader
  accountKeys : List Pubkey
  recentBlockhash : Hash
  instructions : List CompiledInstruction
  deriving DecidableEq, Repr

/-! ## Compilation -/

def position (keys : List Pubkey) (key : Pubkey) : Nat := keys.idxOf key % U8

def compileInstruction (ix : Instruction) (keys : List Pubkey) : CompiledInstruction where
  programIdIndex := position keys ix.programId
  accounts := ix.accounts.map fun m => position keys m.pubkey
  data := ix.data

def getProgramIds (instructions : List Instruction) : List Pubkey :=
  (instructions.map Instruction.programId).eraseDups

/-- Signed before unsigned, and among these writable before read-only. -/
def AccountMeta.rank (m : AccountMeta) : Nat :=
  (if m.isSigner then 0 else 2) + (if m.isWritable then 0 else 1)

open AccountMeta

section

variable (instructions : List Instruction) (metas : List AccountMeta)

/-- `sort_by`, which is stable. -/
def sortMetas : List AccountMeta :=
  metas.insertionSort fun x y => x.rank ≤ y.rank

/-- One step of the loop that removes duplicates: a key that is there already is promoted to
writable if the later meta requires it. -/
def addMeta : List AccountMeta → AccountMeta → List AccountMeta
  | [], m => [m]
  | x :: rest, m =>
    if x.pubkey = m.pubkey then { x with isWritable := x.isWritable || m.isWritable } :: rest
    else x :: addMeta rest m

def uniqueMetas : List AccountMeta := metas.foldl addMeta []

structure InstructionKeys where
  signedKeys : List Pubkey
  unsignedKeys : List Pubkey
  numReadonlySignedAccounts : Nat
  numReadonlyUnsignedAccounts : Nat
  deriving DecidableEq, Repr

/-- The metas of the instructions, and those of their programs. -/
def allMetas : List AccountMeta :=
  instructions.flatMap Instruction.accounts
    ++ (getProgramIds instructions).map fun programId => ⟨programId, false, false⟩

/-- `get_keys`; the counts are `u8`. -/
def getKeys (payer : Option Pubkey) : InstructionKeys :=
  let keysAndSigned :=
    payer.toList.map (fun p => ⟨p, true, true⟩) ++ sortMetas (allMetas instructions)
  let unique := uniqueMetas keysAndSigned
  { signedKeys := (unique.filter fun m => m.isSigner).map pubkey
    unsignedKeys := (unique.filter fun m => !m.isSigner).map pubkey
    numReadonlySignedAccounts := unique.countP (fun m => m.isSigner && !m.isWritable) % U8
    numReadonlyUnsignedAccounts := unique.countP (fun m => !m.isSigner && !m.isWritable) % U8 }

end

namespace Message

def new (instructions : List Instruction) (payer : Option Pubkey) : Message :=
  let keys := getKeys instructions payer
  let accountKeys := keys.signedKeys ++ keys.unsignedKeys
  { header :=
      { numRequiredSignatures := keys.signedKeys.length % U8
        numReadonlySignedAccounts := keys.numReadonlySignedAccounts
        numReadonlyUnsignedAccounts := keys.numReadonlyUnsignedAccounts }
    accountKeys
    recentBlockhash := 0
    instructions := instructions.map fun ix => compileInstruction ix accountKeys }

/-- `is_writable`; the difference of the counts is one of `u8`. -/
def isWritable (m : Message) (i : Nat) : Bool :=
  decide (i < (m.header.numRequiredSignatures + (U8 - m.header.numReadonlySignedAccounts)) % U8) ||
    (decide (m.header.numRequiredSignatures ≤ i) &&
      decide (i < m.accountKeys.length - m.header.numReadonlyUnsignedAccounts))

def isSigner (m : Message) (i : Nat) : Bool := decide (i < m.header.numRequiredSignatures)

end Message

/-! ## The sort -/

variable {metas : List AccountMeta} {writable signer : Bool} {m : AccountMeta} {α : Type}
  {r : α → α → Prop} {a : α} {l : List α} {key : Pubkey}

def metasWith (metas : List AccountMeta) (signer writable : Bool) : List AccountMeta :=
  metas.filter fun m => m.isSigner == signer && m.isWritable == writable

theorem rank_of_mem_metasWith (h : m ∈ metasWith metas signer writable) :
    m.rank = (if signer then 0 else 2) + (if writable then 0 else 1) := by
  simp only [metasWith, mem_filter, Bool.and_eq_true, beq_iff_eq] at h
  rw [rank, h.2.1, h.2.2]

theorem orderedInsert_append [DecidableRel r] {l₁ l₂ : List α}
    (h : ∀ b ∈ l₁, ¬ r a b) : (l₁ ++ l₂).orderedInsert r a = l₁ ++ l₂.orderedInsert r a := by
  induction l₁ with
  | nil => rfl
  | cons b l₁ ih =>
    rw [cons_append, List.orderedInsert, if_neg (h b (by simp)), ih fun c hc => h c (by simp [hc]),
      cons_append]

theorem orderedInsert_eq_cons [DecidableRel r]
    (h : ∀ b ∈ l, r a b) : l.orderedInsert r a = a :: l := by
  cases l with
  | nil => rfl
  | cons b l => rw [List.orderedInsert, if_pos (h b (by simp))]

section

variable (metas : List AccountMeta)

/-- **The stable sort** lines the metas up by their flags. -/
theorem sortMetas_eq :
    sortMetas metas = metasWith metas true true ++ (metasWith metas true false
      ++ (metasWith metas false true ++ metasWith metas false false)) := by
  induction metas with
  | nil => rfl
  | cons m metas ih =>
    have hrank : ∀ (signer writable : Bool) (x : AccountMeta), x ∈ metasWith metas signer writable →
        x.rank = (if signer then 0 else 2) + (if writable then 0 else 1) :=
      fun _ _ _ => rank_of_mem_metasWith
    have hsort : sortMetas (m :: metas)
        = (sortMetas metas).orderedInsert (fun x y => x.rank ≤ y.rank) m := rfl
    rw [hsort, ih]
    obtain ⟨key, signer, writable⟩ := m
    -- The new meta goes in front of its own class: the classes before it have a smaller rank.
    cases signer <;> cases writable
    · rw [orderedInsert_append, orderedInsert_append, orderedInsert_append, orderedInsert_eq_cons]
      · simp [metasWith]
      all_goals
        intro x hx
        rw [hrank _ _ x hx]
        simp [rank]
    · rw [orderedInsert_append, orderedInsert_append, orderedInsert_eq_cons]
      · simp [metasWith]
      · intro x hx
        rcases mem_append.mp hx with hx | hx
        all_goals
          rw [hrank _ _ x hx]
          simp [rank]
      all_goals
        intro x hx
        rw [hrank _ _ x hx]
        simp [rank]
    · rw [orderedInsert_append, orderedInsert_eq_cons]
      · simp [metasWith]
      · intro x hx
        simp only [mem_append] at hx
        rcases hx with hx | hx | hx
        all_goals
          rw [hrank _ _ x hx]
          simp [rank]
      · intro x hx
        rw [hrank _ _ x hx]
        simp [rank]
    · rw [orderedInsert_eq_cons]
      · simp [metasWith]
      · simp [rank]

/-! ## Removing duplicates -/

theorem nodup_eraseDups [BEq α] [LawfulBEq α] (l : List α) : l.eraseDups.Nodup := by
  induction l using List.reverseRecOn with
  | nil => exact nodup_nil
  | append_singleton l a ih =>
    rw [eraseDups_append]
    by_cases ha : a ∈ l
    · have hnone : [a].removeAll l = [] := by simp [List.removeAll, ha]
      rw [hnone, eraseDups_nil, append_nil]
      exact ih
    · have hself : [a].removeAll l = [a] := by simp [List.removeAll, ha]
      rw [hself, eraseDups_cons]
      refine nodup_append.mpr ⟨ih, nodup_singleton a, ?_⟩
      rintro b hb c hc rfl
      rw [mem_singleton.mp hc, mem_eraseDups] at hb
      exact ha hb

/-- What the metas say of a key together: the flag of the first one on signing, and whether one is
writable. -/
def metaOf (key : Pubkey) : AccountMeta where
  pubkey := key
  isSigner := (metas.find? fun m => m.pubkey = key).any isSigner
  isWritable := metas.any fun m => m.pubkey = key && m.isWritable

theorem addMeta_of_not_mem {unique : List AccountMeta}
    (h : m.pubkey ∉ unique.map pubkey) : addMeta unique m = unique ++ [m] := by
  induction unique with
  | nil => rfl
  | cons x unique ih =>
    rw [map_cons, mem_cons, not_or] at h
    rw [addMeta, if_neg (Ne.symm h.1), ih h.2, cons_append]

theorem addMeta_of_mem {f : Pubkey → AccountMeta} {keys : List Pubkey}
    (hf : ∀ key, (f key).pubkey = key) (hnodup : keys.Nodup) (h : m.pubkey ∈ keys) :
    addMeta (keys.map f) m = keys.map fun key =>
      if key = m.pubkey then { f key with isWritable := (f key).isWritable || m.isWritable }
        else f key := by
  induction keys with
  | nil => cases h
  | cons key keys ih =>
    rw [nodup_cons] at hnodup
    rw [map_cons, map_cons, addMeta]
    by_cases hkey : key = m.pubkey
    · rw [if_pos ((hf key).trans hkey), if_pos hkey]
      congr 1
      refine map_congr_left fun k hk => ?_
      have hne : k ≠ m.pubkey := fun h => hnodup.1 ((h.trans hkey.symm) ▸ hk)
      rw [if_neg hne]
    · rw [if_neg fun h => hkey ((hf key).symm.trans h), if_neg hkey, ih hnodup.2]
      exact (mem_cons.mp h).resolve_left fun h => hkey h.symm

theorem any_find?_append (m : AccountMeta) (key : Pubkey) (h : key ∈ metas.map pubkey) :
    ((metas ++ [m]).find? fun x => x.pubkey = key) = metas.find? fun x => x.pubkey = key := by
  rw [find?_append]
  obtain ⟨x, hx, hkey⟩ := mem_map.mp h
  have hsome : (metas.find? fun x => x.pubkey = key).isSome := by
    rw [find?_isSome]
    exact ⟨x, hx, decide_eq_true hkey⟩
  exact Option.or_of_isSome hsome

/-- **The loop that removes duplicates** leaves each key once, in the order of the first metas. -/
theorem uniqueMetas_eq : uniqueMetas metas = (metas.map pubkey).eraseDups.map (metaOf metas) := by
  induction metas using List.reverseRecOn with
  | nil => rfl
  | append_singleton metas m ih =>
    have hfold : uniqueMetas (metas ++ [m]) = addMeta (uniqueMetas metas) m := by
      simp [uniqueMetas]
    rw [hfold, ih, map_append, eraseDups_append]
    by_cases hm : m.pubkey ∈ metas.map pubkey
    · have hnone : ([m].map pubkey).removeAll (metas.map pubkey) = [] := by
        simpa [List.removeAll] using hm
      rw [hnone, eraseDups_nil, append_nil,
        addMeta_of_mem (fun _ => rfl) (nodup_eraseDups _) (mem_eraseDups.mpr hm)]
      refine map_congr_left fun key hkey => ?_
      have hfind := any_find?_append metas m key (mem_eraseDups.mp hkey)
      by_cases hk : key = m.pubkey
      · subst hk
        simp [metaOf, hfind]
      · simp [metaOf, hk, Ne.symm hk]
    · have hself : ([m].map pubkey).removeAll (metas.map pubkey) = [m.pubkey] := by
        simpa [List.removeAll] using hm
      have hkeys : m.pubkey ∉ ((metas.map pubkey).eraseDups.map (metaOf metas)).map
          pubkey := by
        simpa [metaOf] using hm
      rw [hself, addMeta_of_not_mem hkeys, map_append]
      congr 1
      · refine map_congr_left fun key hkey => ?_
        have hkey' := mem_eraseDups.mp hkey
        have hne : m.pubkey ≠ key := fun h => hm (h ▸ hkey')
        simp [metaOf, hne]
      · have hfind : (metas.find? fun x => decide (x.pubkey = m.pubkey)) = none := by
          simpa [find?_eq_none] using hm
        have hany : (metas.any fun x => decide (x.pubkey = m.pubkey) && x.isWritable) = false := by
          rw [any_eq_false]
          intro x hx hflag
          simp only [Bool.and_eq_true, decide_eq_true_eq] at hflag
          exact hm (mem_map.mpr ⟨x, hx, hflag.1⟩)
        simp only [eraseDups_cons, map_cons,
          metaOf, find?_append, hfind, any_append, hany]
        simp

/-! ## The keys of one instruction -/

def signedBy (key : Pubkey) : Bool :=
  metas.any fun m => m.pubkey = key && m.isSigner

def writableBy (key : Pubkey) : Bool :=
  metas.any fun m => m.pubkey = key && m.isWritable

end

theorem signedBy_iff :
    signedBy metas key = true ↔ ∃ m ∈ metas, m.pubkey = key ∧ m.isSigner = true := by
  simp [signedBy]

theorem writableBy_iff :
    writableBy metas key = true ↔ ∃ m ∈ metas, m.pubkey = key ∧ m.isWritable = true := by
  simp [writableBy]

/-- The keys of the metas with given flags, each once. -/
def keysWith (metas : List AccountMeta) (signer writable : Bool) : List Pubkey :=
  (metasWith metas signer writable).map pubkey

theorem mem_keysWith :
    key ∈ keysWith metas signer writable
      ↔ ∃ m ∈ metas, m.pubkey = key ∧ m.isSigner = signer ∧ m.isWritable = writable := by
  simp only [keysWith, metasWith]
  grind

section

variable (metas : List AccountMeta)

def writableSigners : List Pubkey := (keysWith metas true true).eraseDups

/-- The keys that are signed by read-only metas only, in the order of these. -/
def readonlySigners : List Pubkey :=
  ((keysWith metas true false).removeAll (keysWith metas true true)).eraseDups

def writableUnsigned : List Pubkey :=
  ((keysWith metas false true).filter fun key => !signedBy metas key).eraseDups

def readonlyUnsigned : List Pubkey :=
  (((keysWith metas false false).filter fun key => !signedBy metas key).removeAll
    ((keysWith metas false true).filter fun key => !signedBy metas key)).eraseDups

end

theorem filter_eraseDups [BEq α] [LawfulBEq α] (p : α → Bool) (l : List α) :
    l.eraseDups.filter p = (l.filter p).eraseDups := by
  induction l using List.reverseRecOn with
  | nil => rfl
  | append_singleton l a ih =>
    rw [eraseDups_append, filter_append, ih, filter_append, eraseDups_append]
    by_cases ha : a ∈ l <;> cases hp : p a <;> simp [List.removeAll, ha, hp]

theorem removeAll_of_subset [BEq α] [LawfulBEq α] {l' : List α} (h : ∀ a ∈ l, a ∈ l') :
    l.removeAll l' = [] := by
  simpa [List.removeAll] using h

section

variable (metas : List AccountMeta)

theorem any_find?_sortMetas (key : Pubkey) :
    ((sortMetas metas).find? fun m => m.pubkey = key).any isSigner = signedBy metas key := by
  have hsigned : ∀ m ∈ metasWith metas true true ++ metasWith metas true false,
      m.isSigner = true := by
    simp only [metasWith]
    grind
  have hunsigned : ∀ m ∈ metasWith metas false true ++ metasWith metas false false,
      m.isSigner = false := by
    simp only [metasWith]
    grind
  rw [sortMetas_eq, ← append_assoc, find?_append]
  cases hfind : (metasWith metas true true ++ metasWith metas true false).find?
    fun m => m.pubkey = key with
  | some m =>
    have hm := mem_of_find?_eq_some hfind
    have hkey : m.pubkey = key := by simpa using find?_some hfind
    have hmem : m ∈ metas := by
      simp only [metasWith] at hm
      grind
    rw [Option.some_or, Option.any_some, hsigned m hm]
    exact (signedBy_iff.mpr ⟨m, hmem, hkey, hsigned m hm⟩).symm
  | none =>
    have hnot : signedBy metas key = false := by
      rw [Bool.eq_false_iff, Ne, signedBy_iff]
      rintro ⟨m, hm, hkey, hs⟩
      rw [find?_eq_none] at hfind
      refine hfind m ?_ (decide_eq_true hkey)
      simp only [metasWith, mem_append, mem_filter, hm, hs]
      cases m.isWritable <;> simp
    rw [Option.none_or, hnot]
    cases hfind' : (metasWith metas false true ++ metasWith metas false false).find?
        fun m => m.pubkey = key with
    | none => rfl
    | some m =>
      rw [Option.any_some, hunsigned m (mem_of_find?_eq_some hfind')]

theorem any_sortMetas (p : AccountMeta → Bool) : (sortMetas metas).any p = metas.any p := by
  rw [Bool.eq_iff_iff, any_eq_true, any_eq_true]
  refine exists_congr fun m => and_congr_left fun _ => ?_
  exact mem_insertionSort _

theorem uniqueMetas_sort :
    uniqueMetas (sortMetas metas) = ((sortMetas metas).map pubkey).eraseDups.map
      fun key => ⟨key, signedBy metas key, writableBy metas key⟩ := by
  rw [uniqueMetas_eq]
  refine map_congr_left fun key _ => ?_
  rw [metaOf, any_find?_sortMetas, any_sortMetas]
  rfl

theorem map_sortMetas :
    (sortMetas metas).map pubkey = (keysWith metas true true ++ keysWith metas true false)
      ++ (keysWith metas false true ++ keysWith metas false false) := by
  rw [sortMetas_eq]
  simp [keysWith]

end

theorem signedBy_of_keysWith (h : key ∈ keysWith metas true writable) :
    signedBy metas key = true := by
  obtain ⟨m, hm, hkey, hs, -⟩ := mem_keysWith.mp h
  exact signedBy_iff.mpr ⟨m, hm, hkey, hs⟩

theorem mem_of_signedBy (h : signedBy metas key = true) :
    key ∈ keysWith metas true true ++ keysWith metas true false := by
  obtain ⟨m, hm, hkey, hs⟩ := signedBy_iff.mp h
  rw [mem_append, mem_keysWith, mem_keysWith]
  cases hw : m.isWritable with
  | true => exact .inl ⟨m, hm, hkey, hs, hw⟩
  | false => exact .inr ⟨m, hm, hkey, hs, hw⟩

/-- The signed keys: those with a writable meta that signs, then the others. -/
theorem signedKeys_eq (metas : List AccountMeta) :
    (((sortMetas metas).map pubkey).filter (signedBy metas)).eraseDups
      = writableSigners metas ++ readonlySigners metas := by
  rw [map_sortMetas, filter_append, eraseDups_append, removeAll_of_subset, eraseDups_nil,
    append_nil, filter_eq_self.mpr, eraseDups_append]
  · rfl
  · exact forall_mem_append.mpr ⟨fun _ => signedBy_of_keysWith, fun _ => signedBy_of_keysWith⟩
  · intro key hkey
    have hsigned := (mem_filter.mp hkey).2
    exact mem_filter.mpr ⟨mem_of_signedBy hsigned, hsigned⟩

/-- The unsigned keys: those with a writable meta, then the others. -/
theorem unsignedKeys_eq (metas : List AccountMeta) :
    (((sortMetas metas).map pubkey).filter fun key => !signedBy metas key).eraseDups
      = writableUnsigned metas ++ readonlyUnsigned metas := by
  have hnone : ((keysWith metas true true ++ keysWith metas true false).filter
      fun key => !signedBy metas key) = [] := by
    rw [filter_eq_nil_iff]
    intro key hkey
    rcases mem_append.mp hkey with hkey | hkey
    · simp [signedBy_of_keysWith hkey]
    · simp [signedBy_of_keysWith hkey]
  rw [map_sortMetas, filter_append, hnone, nil_append, filter_append, eraseDups_append]
  rfl

theorem writableBy_of_writableSigners (h : key ∈ writableSigners metas) :
    writableBy metas key = true := by
  obtain ⟨m, hm, hkey, -, hw⟩ := mem_keysWith.mp (mem_eraseDups.mp h)
  exact writableBy_iff.mpr ⟨m, hm, hkey, hw⟩

theorem writableBy_of_writableUnsigned (h : key ∈ writableUnsigned metas) :
    writableBy metas key = true := by
  obtain ⟨m, hm, hkey, -, hw⟩ := mem_keysWith.mp (mem_filter.mp (mem_eraseDups.mp h)).1
  exact writableBy_iff.mpr ⟨m, hm, hkey, hw⟩

theorem writableBy_of_readonlyUnsigned (h : key ∈ readonlyUnsigned metas) :
    writableBy metas key = false := by
  simp only [readonlyUnsigned, mem_eraseDups, List.removeAll, mem_filter, contains_eq_mem,
    Bool.not_eq_eq_eq_not, Bool.not_true,
    decide_eq_false_iff_not, not_and] at h
  rw [Bool.eq_false_iff, Ne, writableBy_iff]
  rintro ⟨m, hm, hkey, hw⟩
  cases hs : m.isSigner with
  | true =>
    have := signedBy_iff.mpr ⟨m, hm, hkey, hs⟩
    rw [this] at h
    exact absurd h.1.2 (by simp)
  | false => exact h.2 (mem_keysWith.mpr ⟨m, hm, hkey, hs, hw⟩) h.1.2

/-- **The keys of a message of one instruction without a payer**, and the counts of the read-only
ones. -/
theorem getKeys_single (ix : Instruction) :
    getKeys [ix] none =
      { signedKeys := writableSigners (allMetas [ix]) ++ readonlySigners (allMetas [ix])
        unsignedKeys := writableUnsigned (allMetas [ix]) ++ readonlyUnsigned (allMetas [ix])
        numReadonlySignedAccounts :=
          (readonlySigners (allMetas [ix])).countP (fun key => !writableBy (allMetas [ix]) key) % U8
        numReadonlyUnsignedAccounts := (readonlyUnsigned (allMetas [ix])).length % U8 } := by
  generalize hmetas : allMetas [ix] = metas
  have hsigned := signedKeys_eq metas
  have hunsigned := unsignedKeys_eq metas
  rw [← filter_eraseDups] at hsigned hunsigned
  have hsignedCount : (uniqueMetas (sortMetas metas)).countP (fun m => m.isSigner && !m.isWritable)
      = (readonlySigners metas).countP fun key => !writableBy metas key := by
    have hzero : (writableSigners metas).countP (fun key => !writableBy metas key) = 0 := by
      rw [countP_eq_zero]
      intro key hkey
      simp [writableBy_of_writableSigners hkey]
    have hcount := congrArg (List.countP fun key => !writableBy metas key) hsigned
    rw [countP_filter, countP_append, hzero, Nat.zero_add] at hcount
    rw [← hcount, uniqueMetas_sort, countP_map]
    refine countP_congr fun key _ => ?_
    simp [and_comm]
  have hunsignedCount : (uniqueMetas (sortMetas metas)).countP
      (fun m => !m.isSigner && !m.isWritable)
      = (readonlyUnsigned metas).length := by
    have hzero : (writableUnsigned metas).countP (fun key => !writableBy metas key) = 0 := by
      rw [countP_eq_zero]
      intro key hkey
      simp [writableBy_of_writableUnsigned hkey]
    have hall : (readonlyUnsigned metas).countP (fun key => !writableBy metas key)
        = (readonlyUnsigned metas).length := by
      rw [countP_eq_length]
      intro key hkey
      simp [writableBy_of_readonlyUnsigned hkey]
    have hcount := congrArg (List.countP fun key => !writableBy metas key) hunsigned
    rw [countP_filter, countP_append, hzero, Nat.zero_add, hall] at hcount
    rw [← hcount, uniqueMetas_sort, countP_map]
    refine countP_congr fun key _ => ?_
    simp [and_comm]
  unfold getKeys
  simp only [hmetas, Option.toList_none, map_nil, nil_append, hsignedCount, hunsignedCount]
  rw [← hsigned, ← hunsigned, uniqueMetas_sort]
  simp [filter_map, Function.comp_def]

end Panoptes.Sdk
