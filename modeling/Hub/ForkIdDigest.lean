/-
# What a digest with a fork id commits to

Two calls of `SignatureHash` with `SIGHASH_FORKID` that return the same digest sign the same
(`Agrees`), as long as the hash has no collision among the byte strings that the two calls hash:
the bytes are read back one member after the other.

There is one exception.  `SignatureHash` returns the constant one for `SIGHASH_SINGLE` without an
output at the index of the input before it looks at `SIGHASH_FORKID`, and the test of the index in
the branch for `SIGHASH_FORKID` is never false.  `binds_iff` says that these calls commit to
nothing, and all others do.
-/
import Hub.SignatureHash

open ByteCodec Serialization

namespace Script

/-- The arguments of a call of `SignatureHash` for an input, with `SIGHASH_FORKID`.  The members
are in the range of their C++ types, and the size of a script is a `uint32_t`. -/
structure ForkIdSpend where
  scriptCode : CScript
  txTo : CTransaction
  nIn : ℕ
  amount : ℤ
  nHashType : UInt32
  flags : Flags
  nIn_lt : nIn < txTo.vin.length
  typed : txTo.Typed
  amount_mem : -2 ^ 63 ≤ amount ∧ amount < 2 ^ 63
  scriptCode_lt : scriptCode.length < 2 ^ 32
  scripts_lt : ∀ o ∈ txTo.vout, o.scriptPubKey.length < 2 ^ 32
  forkId : nHashType &&& sigHashForkId ≠ 0
  enabled : flags.has enableSigHashForkId = true

namespace ForkIdSpend

variable (Hash : List UInt8 → Uint256) (s t : ForkIdSpend)

/-- The input that is signed. -/
def txin : CTxIn := s.txTo.vin.get ⟨s.nIn, s.nIn_lt⟩

/-- What `SignatureHash` returns. -/
def digest : Uint256 :=
  signatureHash Hash s.scriptCode s.txTo s.nIn s.amount s.nHashType s.flags

/-- The byte strings that `SignatureHash` hashes. -/
def preimages : List (List UInt8) :=
  (signatureHashBytes Hash s.scriptCode s.txTo s.nIn s.amount s.nHashType s.flags).elim []
    fun bytes => bytes :: [prevoutsPart s.txTo s.nHashType, sequencePart s.txTo s.nHashType,
      outputsPart s.txTo s.nIn s.nHashType].flatMap Option.toList

/-- The hash is injective on what is hashed for the two calls, and no hash is zero or one. -/
def NoCollision : Prop :=
  Set.InjOn Hash {bytes | bytes ∈ s.preimages Hash ∨ bytes ∈ t.preimages Hash} ∧
    ∀ bytes, bytes ∈ s.preimages Hash ∨ bytes ∈ t.preimages Hash →
      Hash bytes ≠ 0 ∧ Hash bytes ≠ 1

/-- The calls are about the same hash type, input, script and amount, and about the same other
inputs and outputs as far as the hash type says so. -/
structure Agrees : Prop where
  nHashType : s.nHashType = t.nHashType
  nVersion : s.txTo.nVersion = t.txTo.nVersion
  nLockTime : s.txTo.nLockTime = t.txTo.nLockTime
  prevout : s.txin.prevout = t.txin.prevout
  nSequence : s.txin.nSequence = t.txin.nSequence
  scriptCode : s.scriptCode = t.scriptCode
  amount : s.amount = t.amount
  prevouts : s.nHashType &&& sigHashAnyoneCanPay = 0 → s.txTo.prevouts = t.txTo.prevouts
  vout : baseType s.nHashType = sigHashAll → s.txTo.vout = t.txTo.vout
  sequences : s.nHashType &&& sigHashAnyoneCanPay = 0 → baseType s.nHashType = sigHashAll →
    s.txTo.vin.map CTxIn.nSequence = t.txTo.vin.map CTxIn.nSequence

/-- `SIGHASH_SINGLE` without an output for the input. -/
def NoOutput : Prop := baseType s.nHashType = sigHashSingle ∧ s.nIn ≥ s.txTo.vout.length

instance : Decidable s.NoOutput := inferInstanceAs (Decidable (_ ∧ _))

variable {Hash s t}

/-! ## The bytes that are hashed -/

theorem bytes_of_noOutput (h : s.NoOutput) :
    signatureHashBytes Hash s.scriptCode s.txTo s.nIn s.amount s.nHashType s.flags = none := by
  rw [signatureHashBytes, List.getElem?_eq_getElem s.nIn_lt]
  exact if_pos h

theorem bytes_of_output (h : ¬ s.NoOutput) :
    signatureHashBytes Hash s.scriptCode s.txTo s.nIn s.amount s.nHashType s.flags =
      some (forkIdBytes Hash s.scriptCode s.txTo s.txin s.nIn s.amount s.nHashType) := by
  rw [signatureHashBytes, List.getElem?_eq_getElem s.nIn_lt]
  exact (if_neg h).trans (if_pos ⟨s.forkId, s.enabled⟩)

theorem digest_of_noOutput (h : s.NoOutput) : s.digest Hash = 1 := by
  rw [digest, signatureHash, bytes_of_noOutput h]
  rfl

theorem digest_of_output (h : ¬ s.NoOutput) : s.digest Hash =
    Hash (forkIdBytes Hash s.scriptCode s.txTo s.txin s.nIn s.amount s.nHashType) := by
  rw [digest, signatureHash, bytes_of_output h]
  rfl

theorem preimages_of_noOutput (h : s.NoOutput) : s.preimages Hash = [] := by
  rw [preimages, bytes_of_noOutput h]
  rfl

theorem mem_preimages (h : ¬ s.NoOutput) :
    forkIdBytes Hash s.scriptCode s.txTo s.txin s.nIn s.amount s.nHashType ∈ s.preimages Hash := by
  rw [preimages, bytes_of_output h]
  exact List.mem_cons_self

theorem mem_preimages_of_part (h : ¬ s.NoOutput) {part : List UInt8}
    {parts : Option (List UInt8)} (hpart : parts = some part)
    (hmem : parts ∈ [prevoutsPart s.txTo s.nHashType, sequencePart s.txTo s.nHashType,
      outputsPart s.txTo s.nIn s.nHashType]) : part ∈ s.preimages Hash := by
  rw [preimages, bytes_of_output h]
  apply List.mem_cons_of_mem
  exact List.mem_flatMap.mpr ⟨parts, hmem, by rw [hpart]; exact List.mem_singleton_self part⟩

/-! ## Reading the bytes back -/

theorem reads_writeHash (part : Option (List UInt8)) :
    Reads (readData 32) (writeHash Hash part) ((part.map Hash).getD 0).toNat := by
  apply reads_readData
  have := ((part.map Hash).getD 0).isLt
  omega

theorem reads_writeScript {script : List UInt8} (h : script.length < 2 ^ 32) :
    Reads (readCompactNumber >>= readBytes) (writeScript script) script :=
  (reads_readCompactNumber (by omega)).bind (reads_readBytes script)

theorem reads_int64 {n : ℤ} : Reads (readData 8) (leBytes 8 (n % 2 ^ 64).toNat) (n % 2 ^ 64).toNat := by
  apply reads_readData
  omega

theorem int64_eq {m n : ℤ} (hm : -2 ^ 63 ≤ m ∧ m < 2 ^ 63) (hn : -2 ^ 63 ≤ n ∧ n < 2 ^ 63)
    (h : (m % 2 ^ 64).toNat = (n % 2 ^ 64).toNat) : m = n := by
  omega

/-- Reads an output, with a script of any size. -/
def readOutput : Reader String CTxOut := do
  let nValue ← readData 8
  let scriptPubKey ← readCompactNumber >>= readBytes
  pure ⟨(nValue : ℤ).bmod (2 ^ 64), scriptPubKey⟩

theorem reads_output {o : CTxOut} (hv : -2 ^ 63 ≤ o.nValue ∧ o.nValue < 2 ^ 63)
    (h : o.scriptPubKey.length < 2 ^ 32) : Reads readOutput o.serialize o := by
  have hvalue : (((o.nValue % 2 ^ 64).toNat : ℤ).bmod (2 ^ 64)) = o.nValue := by
    rw [Int.bmod_def]
    omega
  refine CTxOut.reads_nValue.bind ((reads_writeScript h).map ?_)
  rw [hvalue]

/-! ## Digests that are equal -/

/-- The parts that are hashed on their own are equal when what is written of them is. -/
theorem part_eq (h : NoCollision Hash s t) (hs : ¬ s.NoOutput) (ht : ¬ t.NoOutput)
    {p q : Option (List UInt8)} {a b : List UInt8} (hp : p = some a) (hq : q = some b)
    (hps : p ∈ [prevoutsPart s.txTo s.nHashType, sequencePart s.txTo s.nHashType,
      outputsPart s.txTo s.nIn s.nHashType])
    (hqt : q ∈ [prevoutsPart t.txTo t.nHashType, sequencePart t.txTo t.nHashType,
      outputsPart t.txTo t.nIn t.nHashType])
    (heq : ((p.map Hash).getD 0).toNat = ((q.map Hash).getD 0).toNat) : a = b := by
  apply h.1
  · exact .inl (mem_preimages_of_part hs hp hps)
  · exact .inr (mem_preimages_of_part ht hq hqt)
  · rw [hp, hq] at heq
    exact BitVec.eq_of_toNat_eq heq

theorem uint32_eq {m n : UInt32} (h : m.toNat = n.toNat) : m = n := UInt32.toNat_inj.mp h

theorem prevouts_eq (h : prevoutBytes s.txTo = prevoutBytes t.txTo) :
    s.txTo.prevouts = t.txTo.prevouts := by
  apply map_eq_of_flatMap_eq (r := COutPoint.unserialize) _ _ _ _ _ h
  · intro txin hnil
    have hlen := congrArg List.length hnil
    rw [COutPoint.serialize, List.length_append, length_leBytes] at hlen
    cases hlen
  · exact fun txin hmem => COutPoint.reads_unserialize (s.typed.1 txin hmem)
  · exact fun txin hmem => COutPoint.reads_unserialize (t.typed.1 txin hmem)

theorem sequences_eq (h : sequenceBytes s.txTo = sequenceBytes t.txTo) :
    s.txTo.vin.map CTxIn.nSequence = t.txTo.vin.map CTxIn.nSequence := by
  have hmap : s.txTo.vin.map (fun txin => txin.nSequence.toNat) =
      t.txTo.vin.map fun txin => txin.nSequence.toNat := by
    apply map_eq_of_flatMap_eq (r := readData 4) _ _ _ _ _ h
    · intro txin hnil
      have hlen := congrArg List.length hnil
      rw [length_leBytes] at hlen
      cases hlen
    · exact fun txin _ => reads_readData_uint32 txin.nSequence
    · exact fun txin _ => reads_readData_uint32 txin.nSequence
  have hof := congrArg (List.map UInt32.ofNat) hmap
  simpa only [List.map_map, Function.comp_def, UInt32.ofNat_toNat] using hof

theorem outputs_eq (h : outputsBytes s.txTo = outputsBytes t.txTo) : s.txTo.vout = t.txTo.vout := by
  have hmap : s.txTo.vout.map id = t.txTo.vout.map id := by
    apply map_eq_of_flatMap_eq (r := readOutput) _ _ _ _ _ h
    · intro o hnil
      have hlen := congrArg List.length hnil
      rw [CTxOut.serialize, List.length_append, length_leBytes] at hlen
      simp at hlen
    · exact fun o hmem => reads_output (s.typed.2 o hmem) (s.scripts_lt o hmem)
    · exact fun o hmem => reads_output (t.typed.2 o hmem) (t.scripts_lt o hmem)
  rwa [List.map_id, List.map_id] at hmap

/-- **The digest is about one thing**: the members are read back one after the other. -/
theorem agrees_of_digest_eq (h : NoCollision Hash s t) (hs : ¬ s.NoOutput) (ht : ¬ t.NoOutput)
    (heq : s.digest Hash = t.digest Hash) : Agrees s t := by
  rw [digest_of_output hs, digest_of_output ht] at heq
  have hbytes := h.1 (.inl (mem_preimages hs)) (.inr (mem_preimages ht)) heq
  unfold forkIdBytes at hbytes
  have hin : ∀ u : ForkIdSpend, u.txin.prevout.n < 2 ^ 32 :=
    fun u => u.typed.1 _ (List.getElem_mem u.nIn_lt)
  obtain ⟨hversion, hbytes⟩ := (reads_readData_uint32 _).inj (reads_readData_uint32 _) hbytes
  obtain ⟨hprevouts, hbytes⟩ := (reads_writeHash _).inj (reads_writeHash _) hbytes
  obtain ⟨hsequence, hbytes⟩ := (reads_writeHash _).inj (reads_writeHash _) hbytes
  obtain ⟨hprevout, hbytes⟩ := (COutPoint.reads_unserialize (hin s)).inj
    (COutPoint.reads_unserialize (hin t)) hbytes
  obtain ⟨hscript, hbytes⟩ := (reads_writeScript s.scriptCode_lt).inj
    (reads_writeScript t.scriptCode_lt) hbytes
  obtain ⟨hamount, hbytes⟩ := reads_int64.inj reads_int64 hbytes
  obtain ⟨hnSequence, hbytes⟩ := (reads_readData_uint32 _).inj (reads_readData_uint32 _) hbytes
  obtain ⟨houtputs, hbytes⟩ := (reads_writeHash _).inj (reads_writeHash _) hbytes
  obtain ⟨hlock, hbytes⟩ := (reads_readData_uint32 _).inj (reads_readData_uint32 _) hbytes
  rw [← List.append_nil (leBytes 4 s.nHashType.toNat),
    ← List.append_nil (leBytes 4 t.nHashType.toNat)] at hbytes
  have htype := uint32_eq ((reads_readData_uint32 _).inj (reads_readData_uint32 _) hbytes).1
  -- the hash type says which of the hashes are hashes
  have hall : ∀ {x : UInt32}, baseType x = sigHashAll →
      baseType x ≠ sigHashSingle ∧ baseType x ≠ sigHashNone := by
    intro x hb
    rw [hb]
    decide
  constructor
  case nHashType => exact htype
  case nVersion =>
    have hsigned := congrArg UInt32.toInt32 (uint32_eq hversion)
    rwa [Int32.toInt32_toUInt32, Int32.toInt32_toUInt32] at hsigned
  case nLockTime => exact uint32_eq hlock
  case prevout => exact hprevout
  case nSequence => exact uint32_eq hnSequence
  case scriptCode => exact hscript
  case amount => exact int64_eq s.amount_mem t.amount_mem hamount
  case prevouts =>
    intro hany
    apply prevouts_eq
    have hany' : t.nHashType &&& sigHashAnyoneCanPay = 0 := by rw [← htype]; exact hany
    exact part_eq (p := prevoutsPart s.txTo s.nHashType) (q := prevoutsPart t.txTo t.nHashType)
      h hs ht (if_pos hany) (if_pos hany') (by simp) (by simp) hprevouts
  case vout =>
    intro hb
    have hb' : baseType t.nHashType = sigHashAll := by rw [← htype]; exact hb
    apply outputs_eq
    exact part_eq (p := outputsPart s.txTo s.nIn s.nHashType)
      (q := outputsPart t.txTo t.nIn t.nHashType)
      h hs ht (if_pos (hall hb)) (if_pos (hall hb')) (by simp) (by simp) houtputs
  case sequences =>
    intro hany hb
    have hany' : t.nHashType &&& sigHashAnyoneCanPay = 0 := by rw [← htype]; exact hany
    have hb' : baseType t.nHashType = sigHashAll := by rw [← htype]; exact hb
    apply sequences_eq
    exact part_eq (p := sequencePart s.txTo s.nHashType) (q := sequencePart t.txTo t.nHashType)
      h hs ht (if_pos ⟨hany, hall hb⟩) (if_pos ⟨hany', hall hb'⟩) (by simp) (by simp) hsequence

/-- The constant is the digest for every amount. -/
theorem not_binds_of_noOutput (hs : s.NoOutput) : ¬ ∀ t : ForkIdSpend, NoCollision Hash s t →
    s.digest Hash = t.digest Hash → Agrees s t := by
  intro h
  let t : ForkIdSpend := { s with
    amount := if s.amount = 0 then 1 else 0
    amount_mem := by split_ifs <;> omega }
  have ht : t.NoOutput := hs
  have hcollision : NoCollision Hash s t := by
    rw [NoCollision, preimages_of_noOutput hs, preimages_of_noOutput ht]
    constructor
    · rintro bytes (hmem | hmem) <;> cases hmem
    · rintro bytes (hmem | hmem) <;> cases hmem
  have hamount : s.amount = if s.amount = 0 then 1 else 0 :=
    (h t hcollision ((digest_of_noOutput hs).trans (digest_of_noOutput ht).symm)).amount
  split_ifs at hamount with hzero
  · rw [hzero] at hamount
    cases hamount
  · exact hzero hamount

variable (Hash s) in
/-- **Which calls commit to what they sign**: all but those with `SIGHASH_SINGLE` for an input
without an output. -/
theorem binds_iff : (∀ t : ForkIdSpend, NoCollision Hash s t → s.digest Hash = t.digest Hash →
    Agrees s t) ↔ ¬ s.NoOutput := by
  constructor
  · exact fun h hs => not_binds_of_noOutput hs h
  · intro hs t hcollision heq
    by_cases ht : t.NoOutput
    · -- no hash is the constant
      rw [digest_of_output hs, digest_of_noOutput ht] at heq
      exact absurd heq (hcollision.2 _ (.inl (mem_preimages hs))).2
    · exact agrees_of_digest_eq hcollision hs ht heq

theorem typed_twoInputs : twoInputs.Typed := by
  unfold CTransaction.Typed
  decide

theorem scripts_twoInputs : ∀ o ∈ twoInputs.vout, o.scriptPubKey.length < 2 ^ 32 := by decide

theorem forkId_single : (sigHashForkId ||| sigHashSingle) &&& sigHashForkId ≠ 0 := by decide

theorem has_enableSigHashForkId : enableSigHashForkId.has enableSigHashForkId = true := by decide

/-- The second of two inputs, with one output, signed with `SIGHASH_SINGLE`. -/
def secondInput (amount : ℤ) (h : -2 ^ 63 ≤ amount ∧ amount < 2 ^ 63) : ForkIdSpend where
  scriptCode := [Opcode.op1]
  txTo := twoInputs
  nIn := 1
  amount := amount
  nHashType := sigHashForkId ||| sigHashSingle
  flags := enableSigHashForkId
  nIn_lt := Nat.le_of_ble_eq_true rfl
  typed := typed_twoInputs
  amount_mem := h
  scriptCode_lt := Nat.le_of_ble_eq_true rfl
  scripts_lt := scripts_twoInputs
  forkId := forkId_single
  enabled := has_enableSigHashForkId

/-- Two amounts with the digest one. -/
theorem not_binds_secondInput : ¬ ∀ (Hash : List UInt8 → Uint256) (s t : ForkIdSpend),
    NoCollision Hash s t → s.digest Hash = t.digest Hash → Agrees s t := by
  intro h
  have hno : (secondInput 0 (by omega)).NoOutput := by decide
  exact not_binds_of_noOutput hno (h (fun _ => 0) (secondInput 0 (by omega)))

end ForkIdSpend

end Script
