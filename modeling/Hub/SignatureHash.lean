/-
# Signature hashes

`SignatureHash` (`libs/server/script/interpreter.cpp`) and the algorithm that it came from,
`SignatureHashOld` (`testing/test/sighash_tests.cpp`).  Each returns the constant one, or the hash
of the bytes that it has written; here it returns these bytes, or nothing for the constant.

The old algorithm copies the transaction, blanks what the hash type leaves open and serialises the
copy.  `CTransactionSignatureSerializer` writes the same bytes from the transaction itself
(`signatureHash_eq_old`).  A loop over `unsigned int` counts up to `2 ^ 32`; a vector of a
transaction that was read has `MAX_SIZE` elements at most.
-/
import Hub.OpcodeFilter
import Hub.Serialization

open ByteCodec Serialization Opcode

namespace Script

/-! ## The serialiser -/

/-- `nHashType & 0x1f`. -/
def baseType (nHashType : UInt32) : UInt32 := nHashType &&& 0x1f

/-- `CTransactionSignatureSerializer`. -/
structure CTransactionSignatureSerializer where
  txTo : CTransaction
  scriptCode : CScript
  nIn : ℕ
  fAnyoneCanPay : Bool
  fHashSingle : Bool
  fHashNone : Bool

namespace CTransactionSignatureSerializer

/-- The constructor. -/
def create (txToIn : CTransaction) (scriptCodeIn : CScript) (nInIn : ℕ) (nHashTypeIn : UInt32) :
    CTransactionSignatureSerializer where
  txTo := txToIn
  scriptCode := scriptCodeIn
  nIn := nInIn
  fAnyoneCanPay := nHashTypeIn &&& sigHashAnyoneCanPay != 0
  fHashSingle := baseType nHashTypeIn == sigHashSingle
  fHashNone := baseType nHashTypeIn == sigHashNone

/-- The first loop of `SerializeScriptCode`. -/
def countSeparators : ℕ → Bytes → ℕ
  | 0, _ => 0
  | fuel + 1, it =>
    match CScript.getOp it with
    | none => 0
    | some (opcode, _, it) =>
      (if opcode = opCodeSeparator then 1 else 0) + countSeparators fuel it

/-- The second loop of `SerializeScriptCode`, and the rest that is written after it: `itBegin` is
behind the last separator. -/
def writeSegments : ℕ → Bytes → Bytes → List UInt8
  | 0, itBegin, it => itBegin.take (itBegin.length - it.length)
  | fuel + 1, itBegin, it =>
    match CScript.getOp2 it with
    | (none, it) => itBegin.take (itBegin.length - it.length)
    | (some (opcode, _), it) =>
      if opcode = opCodeSeparator then
        itBegin.take (itBegin.length - it.length - 1) ++ writeSegments fuel it it
      else writeSegments fuel itBegin it

variable (s : CTransactionSignatureSerializer)

/-- `SerializeScriptCode`. -/
def serializeScriptCode : List UInt8 :=
  writeCompactSize
      (s.scriptCode.length - countSeparators (s.scriptCode.length + 1) s.scriptCode) ++
    writeSegments (s.scriptCode.length + 1) s.scriptCode s.scriptCode

/-- `SerializeInput`. -/
def serializeInput (nInput : ℕ) : List UInt8 :=
  let nInput := if s.fAnyoneCanPay then s.nIn else nInput
  let txin := s.txTo.vin.getD nInput ⟨⟨0, 0xFFFFFFFF⟩, [], 0xFFFFFFFF⟩
  txin.prevout.serialize ++
    ((if nInput ≠ s.nIn then writeScript [] else s.serializeScriptCode) ++
      if nInput ≠ s.nIn ∧ (s.fHashSingle ∨ s.fHashNone) then leBytes 4 0
      else leBytes 4 txin.nSequence.toNat)

/-- `SerializeOutput`. -/
def serializeOutput (nOutput : ℕ) : List UInt8 :=
  if s.fHashSingle ∧ nOutput ≠ s.nIn then CTxOut.null.serialize
  else (s.txTo.vout.getD nOutput CTxOut.null).serialize

/-- The number of inputs that are serialised, an `unsigned int`. -/
def nInputs : ℕ := if s.fAnyoneCanPay then 1 else s.txTo.vin.length % 2 ^ 32

/-- The number of outputs that are serialised, an `unsigned int`. -/
def nOutputs : ℕ :=
  if s.fHashNone then 0
  else if s.fHashSingle then (s.nIn + 1) % 2 ^ 32 else s.txTo.vout.length % 2 ^ 32

/-- `Serialize`. -/
def serialize : List UInt8 :=
  leBytes 4 s.txTo.nVersion.toUInt32.toNat ++
    (writeCompactSize s.nInputs ++ (List.range s.nInputs).flatMap s.serializeInput ++
      (writeCompactSize s.nOutputs ++ (List.range s.nOutputs).flatMap s.serializeOutput ++
        leBytes 4 s.txTo.nLockTime.toNat))

end CTransactionSignatureSerializer

/-! ## The signature hash -/

/-- `GetPrevoutHash`, below the hash. -/
def prevoutBytes (txTo : CTransaction) : List UInt8 :=
  txTo.vin.flatMap fun txin => txin.prevout.serialize

/-- `GetSequenceHash`, below the hash. -/
def sequenceBytes (txTo : CTransaction) : List UInt8 :=
  txTo.vin.flatMap fun txin => leBytes 4 txin.nSequence.toNat

/-- `GetOutputsHash`, below the hash. -/
def outputsBytes (txTo : CTransaction) : List UInt8 := txTo.vout.flatMap CTxOut.serialize

/-- The bytes of `hashPrevouts`, when they are hashed. -/
def prevoutsPart (txTo : CTransaction) (nHashType : UInt32) : Option (List UInt8) :=
  if nHashType &&& sigHashAnyoneCanPay = 0 then some (prevoutBytes txTo) else none

/-- The bytes of `hashSequence`, when they are hashed. -/
def sequencePart (txTo : CTransaction) (nHashType : UInt32) : Option (List UInt8) :=
  if nHashType &&& sigHashAnyoneCanPay = 0 ∧ baseType nHashType ≠ sigHashSingle ∧
      baseType nHashType ≠ sigHashNone then some (sequenceBytes txTo)
  else none

/-- The bytes of `hashOutputs`, when they are hashed. -/
def outputsPart (txTo : CTransaction) (nIn : ℕ) (nHashType : UInt32) : Option (List UInt8) :=
  if baseType nHashType ≠ sigHashSingle ∧ baseType nHashType ≠ sigHashNone then
    some (outputsBytes txTo)
  else if baseType nHashType = sigHashSingle ∧ nIn < txTo.vout.length then
    some (txTo.vout.getD nIn CTxOut.null).serialize
  else none

variable (Hash : List UInt8 → Uint256)

/-- A `uint256` that is hashed or left at zero. -/
def writeHash (part : Option (List UInt8)) : List UInt8 :=
  leBytes 32 ((part.map Hash).getD 0).toNat

/-- The branch of `SignatureHash` for `SIGHASH_FORKID`. -/
def forkIdBytes (scriptCode : CScript) (txTo : CTransaction) (txin : CTxIn) (nIn : ℕ) (amount : ℤ)
    (nHashType : UInt32) : List UInt8 :=
  leBytes 4 txTo.nVersion.toUInt32.toNat ++
    (writeHash Hash (prevoutsPart txTo nHashType) ++
      (writeHash Hash (sequencePart txTo nHashType) ++
        (txin.prevout.serialize ++ (writeScript scriptCode ++ (leBytes 8 (amount % 2 ^ 64).toNat ++
          (leBytes 4 txin.nSequence.toNat ++
            (writeHash Hash (outputsPart txTo nIn nHashType) ++
              (leBytes 4 txTo.nLockTime.toNat ++ leBytes 4 nHashType.toNat))))))))

/-- The bytes that `SignatureHash` hashes, or nothing when it returns one. -/
def signatureHashBytes (scriptCode : CScript) (txTo : CTransaction) (nIn : ℕ) (amount : ℤ)
    (nHashType : UInt32) (flags : Flags) : Option (List UInt8) :=
  match txTo.vin[nIn]? with
  | none => none
  | some txin =>
    if baseType nHashType = sigHashSingle ∧ nIn ≥ txTo.vout.length then none
    else if nHashType &&& sigHashForkId ≠ 0 ∧ flags.has enableSigHashForkId then
      some (forkIdBytes Hash scriptCode txTo txin nIn amount nHashType)
    else
      some ((CTransactionSignatureSerializer.create txTo scriptCode nIn nHashType).serialize ++
        leBytes 4 nHashType.toNat)

/-- `SignatureHash`. -/
def signatureHash (scriptCode : CScript) (txTo : CTransaction) (nIn : ℕ) (amount : ℤ)
    (nHashType : UInt32) (flags : Flags) : Uint256 :=
  ((signatureHashBytes Hash scriptCode txTo nIn amount nHashType flags).map Hash).getD 1

/-! ## The original algorithm -/

/-- `txTmp.vin[i].nSequence = 0` for every other input. -/
def blankSequences (nIn : ℕ) (vin : List CTxIn) : List CTxIn :=
  vin.mapIdx fun i txin => if i ≠ nIn then { txin with nSequence := 0 } else txin

/-- The bytes that `SignatureHashOld` hashes, or nothing when it returns one. -/
def signatureHashOldBytes (scriptCode : CScript) (txTo : CTransaction) (nIn : ℕ)
    (nHashType : UInt32) : Option (List UInt8) :=
  match txTo.vin[nIn]? with
  | none => none
  | some _ =>
    let scriptCode := (scriptCode.findAndDelete [opCodeSeparator]).2
    let vin := txTo.vin.map fun txin => { txin with scriptSig := [] }
    let vin := vin.modify nIn fun txin => { txin with scriptSig := scriptCode }
    if baseType nHashType = sigHashSingle ∧ nIn ≥ txTo.vout.length then none
    else
      let vout :=
        if baseType nHashType = sigHashNone then []
        else if baseType nHashType = sigHashSingle then
          (txTo.vout.take (nIn + 1)).mapIdx fun i txout => if i < nIn then CTxOut.null else txout
        else txTo.vout
      let vin :=
        if baseType nHashType = sigHashNone ∨ baseType nHashType = sigHashSingle then
          blankSequences nIn vin
        else vin
      let vin :=
        if nHashType &&& sigHashAnyoneCanPay ≠ 0 then
          (vin.set 0 (vin.getD nIn ⟨⟨0, 0xFFFFFFFF⟩, [], 0xFFFFFFFF⟩)).take 1
        else vin
      some ((CTransaction.serialize { txTo with vin, vout }) ++ leBytes 4 nHashType.toNat)

/-- `SignatureHashOld`. -/
def signatureHashOld (scriptCode : CScript) (txTo : CTransaction) (nIn : ℕ) (nHashType : UInt32) :
    Uint256 :=
  ((signatureHashOldBytes scriptCode txTo nIn nHashType).map Hash).getD 1

/-! ## Scripts without separators -/

/-- The bytes of the instructions other than `OP_CODESEPARATOR`. -/
def keptBytes (l : List (Opcode × Bytes)) : Bytes :=
  (l.filter (·.1 ≠ opCodeSeparator)).flatMap Prod.snd

/-- The number of instructions that are `OP_CODESEPARATOR`. -/
def separators (l : List (Opcode × Bytes)) : ℕ := l.countP (·.1 = opCodeSeparator)

theorem keptBytes_cons (opcode : Opcode) (bytes : Bytes) (l : List (Opcode × Bytes)) :
    keptBytes ((opcode, bytes) :: l) =
      (if opcode = opCodeSeparator then [] else bytes) ++ keptBytes l := by
  by_cases h : opcode = opCodeSeparator
  · rw [if_pos h, keptBytes, keptBytes, List.filter_cons_of_neg (by simpa using h), List.nil_append]
  · rw [if_neg h, keptBytes, keptBytes, List.filter_cons_of_pos (by simpa using h),
      List.flatMap_cons]

theorem separators_cons (opcode : Opcode) (bytes : Bytes) (l : List (Opcode × Bytes)) :
    separators ((opcode, bytes) :: l) =
      (if opcode = opCodeSeparator then 1 else 0) + separators l := by
  by_cases h : opcode = opCodeSeparator
  · rw [if_pos h, separators, separators, List.countP_cons_of_pos (by simpa using h), Nat.add_comm]
  · rw [if_neg h, separators, separators, List.countP_cons_of_neg (by simpa using h), Nat.zero_add]

/-- A separator is an instruction of one byte. -/
theorem bytes_eq_of_separator {pc vch rest bytes : Bytes}
    (h : CScript.getOp pc = some (opCodeSeparator, vch, rest)) (hpc : pc = bytes ++ rest)
    (hlen : pc.length < 2 ^ 31) : bytes = [opCodeSeparator] := by
  obtain ⟨size, hsize⟩ := CScript.exists_of_getOp h
  have hcons : pc = opCodeSeparator :: (size ++ vch ++ rest) := hsize
  rw [hcons, CScript.getOp_of_gt (by decide) (by rw [hcons] at hlen; exact hlen)] at h
  obtain ⟨-, hrest⟩ := Prod.mk.inj (Prod.mk.inj (Option.some.inj h)).2
  have hnil : size ++ vch = [] := List.append_left_eq_self.mp hrest
  rw [hnil, List.nil_append] at hcons
  exact List.append_cancel_right (hpc.symm.trans hcons)

theorem Instructions.length_keptBytes {pc : Bytes} {l : List (Opcode × Bytes)}
    (h : Instructions pc l) (hlen : pc.length < 2 ^ 31) :
    (keptBytes l).length + separators l = pc.length := by
  induction h with
  | nil => decide
  | @cons pc vch rest bytes opcode l hop hpc hl ih =>
    have hlt := CScript.length_lt_of_getOp hop
    have ihkept := ih (by omega)
    have hsum : pc.length = bytes.length + rest.length := by rw [hpc, List.length_append]
    rw [keptBytes_cons, separators_cons]
    by_cases hsep : opcode = opCodeSeparator
    · subst hsep
      rw [bytes_eq_of_separator hop hpc hlen, List.length_singleton] at hsum
      rw [if_pos rfl, if_pos rfl, List.nil_append]
      omega
    · rw [if_neg hsep, if_neg hsep, List.length_append]
      omega

open CTransactionSignatureSerializer in
theorem Instructions.countSeparators_eq {pc : Bytes} {l : List (Opcode × Bytes)}
    (h : Instructions pc l) : ∀ fuel, l.length ≤ fuel → countSeparators fuel pc = separators l := by
  induction h with
  | nil =>
    intro fuel _
    cases fuel <;> rfl
  | @cons pc vch rest bytes opcode l hop hpc hl ih =>
    intro fuel hfuel
    cases fuel with
    | zero => cases hfuel
    | succ fuel =>
      rw [countSeparators, hop]
      dsimp only
      rw [ih fuel (by simpa using hfuel), separators_cons]

open CTransactionSignatureSerializer in
/-- The segments between the separators; `pre` is what was read since the last one. -/
theorem Instructions.writeSegments_eq {pc : Bytes} {l : List (Opcode × Bytes)}
    (h : Instructions pc l) (hlen : pc.length < 2 ^ 31) : ∀ fuel, l.length ≤ fuel → ∀ pre : Bytes,
    writeSegments fuel (pre ++ pc) pc = pre ++ keptBytes l := by
  induction h with
  | nil =>
    intro fuel _ pre
    have htake : (pre ++ []).take ((pre ++ []).length - ([] : Bytes).length) = pre ++ keptBytes [] := by
      simp [keptBytes]
    cases fuel with
    | zero => exact htake
    | succ fuel => exact htake
  | @cons pc vch rest bytes opcode l hop hpc hl ih =>
    intro fuel hfuel pre
    have hlt := CScript.length_lt_of_getOp hop
    cases fuel with
    | zero => cases hfuel
    | succ fuel =>
      have hrun := ih (by omega) fuel (by simpa using hfuel)
      have hop₂ : CScript.getOp2 pc = (some (opcode, vch), rest) := by
        unfold CScript.getOp at hop
        split at hop
        · obtain ⟨rfl, rfl, rfl⟩ : _ ∧ _ ∧ _ := by simpa using hop
          assumption
        · cases hop
      rw [writeSegments, hop₂]
      dsimp only
      by_cases hsep : opcode = opCodeSeparator
      · subst hsep
        -- the separator itself is left out
        have hbytes := bytes_eq_of_separator hop hpc hlen
        have htake : (pre ++ pc).take ((pre ++ pc).length - rest.length - 1) = pre := by
          have hpre : (pre ++ pc).length - rest.length - 1 = pre.length := by
            rw [hpc, hbytes, List.length_append, List.length_append, List.length_singleton]
            omega
          rw [hpre, List.take_left]
        rw [if_pos rfl, htake]
        have hnext := hrun []
        rw [List.nil_append, List.nil_append] at hnext
        rw [hnext, keptBytes_cons, if_pos rfl, List.nil_append]
      · have hnext := hrun (pre ++ bytes)
        rw [List.append_assoc, ← hpc] at hnext
        rw [if_neg hsep, hnext, keptBytes_cons, if_neg hsep, List.append_assoc]

/-- `FindAndDelete` takes out the separators. -/
theorem Instructions.findLoop_eq {pc : Bytes} {l : List (Opcode × Bytes)} (h : Instructions pc l)
    (hlen : pc.length < 2 ^ 31) {fuel : ℕ} (hfuel : l.length < fuel) :
    (CScript.findLoop [opCodeSeparator] fuel pc).2 = keptBytes l := by
  have hone : IsInstruction [opCodeSeparator] := by
    refine ⟨opCodeSeparator, [], fun rest hlen => ?_⟩
    exact CScript.getOp_of_gt (by decide) hlen
  rw [h.findLoop_spec hone hlen hfuel, keptBytes]
  have hfilter : ∀ {pc : Bytes} {l : List (Opcode × Bytes)}, Instructions pc l → pc.length < 2 ^ 31 →
      l.filter (·.2 ≠ [opCodeSeparator]) = l.filter (·.1 ≠ opCodeSeparator) := by
    intro pc l h hlen
    apply List.filter_congr
    rintro ⟨opcode, bytes⟩ hmem
    obtain ⟨vch, rest, hop, hle⟩ := h.exists_getOp hmem
    have hiff : bytes = [opCodeSeparator] ↔ opcode = opCodeSeparator := by
      constructor
      · rintro rfl
        obtain ⟨size, hsize⟩ := CScript.exists_of_getOp hop
        exact (List.cons.inj hsize).1.symm
      · rintro rfl
        exact bytes_eq_of_separator hop rfl (by omega)
    simp only [ne_eq, hiff]
  rw [hfilter h hlen]

/-! ## The two algorithms agree -/

theorem serializeScriptCode_eq {s : CTransactionSignatureSerializer}
    (hlen : s.scriptCode.length < 2 ^ 32)
    (hparse : (CScript.walk s.scriptCode.length s.scriptCode).isSome = true) :
    s.serializeScriptCode = writeScript (s.scriptCode.findAndDelete [opCodeSeparator]).2 := by
  obtain ⟨l, hl, hfuel⟩ := instructions_of_walk _ _ hparse
  have hlen : s.scriptCode.length < 2 ^ 31 := hl.length_lt hlen
  have hfound : (s.scriptCode.findAndDelete [opCodeSeparator]).2 = keptBytes l := by
    rw [CScript.findAndDelete, if_neg (List.cons_ne_nil _ _)]
    exact hl.findLoop_eq hlen (by omega)
  have hwritten := hl.writeSegments_eq hlen (s.scriptCode.length + 1) (by omega) []
  rw [List.nil_append, List.nil_append] at hwritten
  have hsize : s.scriptCode.length - separators l = (keptBytes l).length := by
    have := hl.length_keptBytes hlen
    omega
  rw [CTransactionSignatureSerializer.serializeScriptCode, hl.countSeparators_eq _ (by omega),
    hwritten, hfound, hsize, writeScript]

/-- What the old algorithm makes of an input. -/
def blanked (scriptCode : CScript) (nIn : ℕ) (blank : Prop) [Decidable blank] (i : ℕ)
    (txin : CTxIn) : CTxIn where
  prevout := txin.prevout
  scriptSig := if i ≠ nIn then [] else scriptCode
  nSequence := if i ≠ nIn ∧ blank then 0 else txin.nSequence

theorem blankSequences_eq (scriptCode : CScript) (nIn : ℕ) (blank : Prop) [Decidable blank]
    (vin : List CTxIn) :
    (if blank then blankSequences nIn
        ((vin.map fun txin => { txin with scriptSig := [] }).modify nIn
          fun txin => { txin with scriptSig := scriptCode })
      else (vin.map fun txin => { txin with scriptSig := [] }).modify nIn
        fun txin => { txin with scriptSig := scriptCode }) =
      vin.mapIdx (blanked scriptCode nIn blank) := by
  apply List.ext_getElem
  · split_ifs <;> simp [blankSequences]
  · intro i h₁ h₂
    by_cases hi : i = nIn
    · subst hi
      by_cases hb : blank <;> simp [hb, blankSequences, blanked]
    · have hi' : ¬ nIn = i := fun h => hi h.symm
      by_cases hb : blank <;> simp [hb, hi, hi', blankSequences, blanked]

/-- A loop that writes the elements of a vector. -/
theorem flatMap_range_eq {α β : Type} {write : β → List UInt8} {f : ℕ → List UInt8}
    {g : ℕ → α → β} {l : List α} {n : ℕ} (hn : l.length = n)
    (h : ∀ i x, l[i]? = some x → f i = write (g i x)) :
    (List.range n).flatMap f = (l.mapIdx g).flatMap write := by
  subst hn
  have hmap : (List.range l.length).map f = (l.mapIdx g).map write := by
    apply List.ext_getElem
    · simp
    · intro i h₁ h₂
      rw [List.getElem_map, List.getElem_map, List.getElem_range, List.getElem_mapIdx]
      exact h i _ (List.getElem?_eq_getElem _)
  rw [List.flatMap_def, List.flatMap_def, hmap]

theorem serializeInput_eq {s : CTransactionSignatureSerializer}
    (hlen : s.scriptCode.length < 2 ^ 32)
    (hparse : (CScript.walk s.scriptCode.length s.scriptCode).isSome = true) {nInput i : ℕ}
    (hi : (if s.fAnyoneCanPay then s.nIn else nInput) = i) {txin : CTxIn}
    (htxin : s.txTo.vin[i]? = some txin) {blank : Prop} [Decidable blank]
    (hblank : (s.fHashSingle = true ∨ s.fHashNone = true) ↔ blank) :
    s.serializeInput nInput =
      (blanked (s.scriptCode.findAndDelete [opCodeSeparator]).2 s.nIn blank i txin).serialize := by
  have hget : s.txTo.vin.getD i ⟨⟨0, 0xFFFFFFFF⟩, [], 0xFFFFFFFF⟩ = txin := by
    rw [List.getD_eq_getElem?_getD, htxin]
    rfl
  simp only [CTransactionSignatureSerializer.serializeInput, serializeScriptCode_eq hlen hparse,
    hi, hget, hblank, CTxIn.serialize, blanked]
  by_cases hn : i = s.nIn
  · simp only [hn, ne_eq, not_true_eq_false, if_false, false_and]
  · by_cases hb : blank
    · simp only [hn, hb, ne_eq, not_false_eq_true, if_true, true_and]
      rfl
    · simp only [hn, hb, ne_eq, not_false_eq_true, if_true, and_false, if_false]

section

variable {txTo : CTransaction} {scriptCode : CScript} {nIn : ℕ} {nHashType : UInt32}

theorem fAnyoneCanPay_create :
    (CTransactionSignatureSerializer.create txTo scriptCode nIn nHashType).fAnyoneCanPay = true ↔
      nHashType &&& sigHashAnyoneCanPay ≠ 0 := bne_iff_ne

theorem fHashSingle_create :
    (CTransactionSignatureSerializer.create txTo scriptCode nIn nHashType).fHashSingle = true ↔
      baseType nHashType = sigHashSingle := beq_iff_eq

theorem fHashNone_create :
    (CTransactionSignatureSerializer.create txTo scriptCode nIn nHashType).fHashNone = true ↔
      baseType nHashType = sigHashNone := beq_iff_eq

theorem blank_iff : (((CTransactionSignatureSerializer.create txTo scriptCode nIn
      nHashType).fHashSingle = true ∨
    (CTransactionSignatureSerializer.create txTo scriptCode nIn nHashType).fHashNone = true) ↔
      (baseType nHashType = sigHashNone ∨ baseType nHashType = sigHashSingle)) := by
  rw [fHashSingle_create, fHashNone_create]
  exact or_comm

variable (nHashType) in
/-- The inputs that the old algorithm leaves. -/
theorem inputs_eq (hlen : scriptCode.length < 2 ^ 32)
    (hparse : (CScript.walk scriptCode.length scriptCode).isSome = true)
    (hvin : txTo.vin.length < 2 ^ 32) {txin : CTxIn} (htxin : txTo.vin[nIn]? = some txin)
    {s : CTransactionSignatureSerializer}
    (hs : s = CTransactionSignatureSerializer.create txTo scriptCode nIn nHashType)
    {vin : List CTxIn}
    (hv : vin = txTo.vin.mapIdx (blanked (scriptCode.findAndDelete [opCodeSeparator]).2 nIn
      (baseType nHashType = sigHashNone ∨ baseType nHashType = sigHashSingle))) :
    writeCompactSize s.nInputs ++ (List.range s.nInputs).flatMap s.serializeInput =
      writeVector CTxIn.serialize
        (if nHashType &&& sigHashAnyoneCanPay ≠ 0 then
          (vin.set 0 (vin.getD nIn ⟨⟨0, 0xFFFFFFFF⟩, [], 0xFFFFFFFF⟩)).take 1
        else vin) := by
  by_cases hany : nHashType &&& sigHashAnyoneCanPay ≠ 0
  · -- the one input takes the first place
    have hn : s.nInputs = 1 := by
      rw [hs, CTransactionSignatureSerializer.nInputs, if_pos (fAnyoneCanPay_create.mpr hany)]
    have hget : vin[nIn]? = some (blanked (scriptCode.findAndDelete [opCodeSeparator]).2 nIn
        (baseType nHashType = sigHashNone ∨ baseType nHashType = sigHashSingle) nIn txin) := by
      rw [hv, List.getElem?_mapIdx, htxin]
      rfl
    have htake : (vin.set 0 (vin.getD nIn ⟨⟨0, 0xFFFFFFFF⟩, [], 0xFFFFFFFF⟩)).take 1 =
        [blanked (scriptCode.findAndDelete [opCodeSeparator]).2 nIn
          (baseType nHashType = sigHashNone ∨ baseType nHashType = sigHashSingle) nIn txin] := by
      rw [List.getD_eq_getElem?_getD, hget]
      cases vin with
      | nil => cases hget
      | cons x vin => rfl
    rw [if_pos hany, htake, hn, hs]
    rw [writeVector, List.range_one, List.flatMap_cons, List.flatMap_nil, List.append_nil,
      List.flatMap_cons, List.flatMap_nil, List.append_nil,
      serializeInput_eq (s := CTransactionSignatureSerializer.create txTo scriptCode nIn nHashType)
        hlen hparse (if_pos (fAnyoneCanPay_create.mpr hany)) htxin blank_iff]
    rfl
  · have hn : s.nInputs = txTo.vin.length := by
      rw [hs, CTransactionSignatureSerializer.nInputs,
        if_neg (fun h => hany (fAnyoneCanPay_create.mp h))]
      exact Nat.mod_eq_of_lt hvin
    have hlength : vin.length = txTo.vin.length := by
      rw [hv, List.length_mapIdx]
    rw [if_neg hany, hn, hs, writeVector, hlength, hv]
    congr 1
    apply flatMap_range_eq rfl
    intro i x hx
    exact serializeInput_eq (s := CTransactionSignatureSerializer.create txTo scriptCode nIn nHashType)
      hlen hparse (if_neg fun h => hany (fAnyoneCanPay_create.mp h)) hx blank_iff

/-- With `SIGHASH_SINGLE` the outputs before the one of the input are blanked, and the others left
out. -/
theorem singleOutputs_eq (hlt : nIn < txTo.vout.length) {s : CTransactionSignatureSerializer}
    (hs : s = CTransactionSignatureSerializer.create txTo scriptCode nIn nHashType)
    (hone : baseType nHashType = sigHashSingle) :
    (List.range (nIn + 1)).flatMap s.serializeOutput =
      ((txTo.vout.take (nIn + 1)).mapIdx fun i txout =>
        if i < nIn then CTxOut.null else txout).flatMap CTxOut.serialize := by
  have hlength : (txTo.vout.take (nIn + 1)).length = nIn + 1 := by
    rw [List.length_take]
    omega
  apply flatMap_range_eq hlength
  intro i x hx
  obtain ⟨hi, hx⟩ := List.getElem?_eq_some_iff.mp hx
  rw [List.length_take] at hi
  rw [List.getElem_take] at hx
  rw [hs, CTransactionSignatureSerializer.serializeOutput]
  by_cases hn : i < nIn
  · rw [if_pos hn, if_pos ⟨fHashSingle_create.mpr hone, by show i ≠ nIn; omega⟩]
  · have hget : txTo.vout.getD i CTxOut.null = x := by
      rw [List.getD_eq_getElem?_getD, List.getElem?_eq_getElem (by omega), hx]
      rfl
    rw [if_neg hn, if_neg (by rintro ⟨-, h⟩; exact h (by show i = nIn; omega))]
    exact congrArg CTxOut.serialize hget

/-- Otherwise every output is written. -/
theorem allOutputs_eq {s : CTransactionSignatureSerializer}
    (hs : s = CTransactionSignatureSerializer.create txTo scriptCode nIn nHashType)
    (hone : baseType nHashType ≠ sigHashSingle) :
    (List.range txTo.vout.length).flatMap s.serializeOutput =
      txTo.vout.flatMap CTxOut.serialize := by
  have hid : txTo.vout.mapIdx (fun _ txout => txout) = txTo.vout := by
    apply List.ext_getElem <;> simp
  conv_rhs => rw [← hid]
  apply flatMap_range_eq rfl
  intro i x hx
  rw [hs, CTransactionSignatureSerializer.serializeOutput, if_neg (by
    rintro ⟨h, -⟩
    exact hone (fHashSingle_create.mp h))]
  show (txTo.vout.getD i CTxOut.null).serialize = x.serialize
  rw [List.getD_eq_getElem?_getD, hx]
  rfl

variable (scriptCode nIn nHashType) in
/-- The outputs that the old algorithm leaves. -/
theorem outputs_eq (hvout : txTo.vout.length < 2 ^ 32)
    (hsingle : baseType nHashType = sigHashSingle → nIn < txTo.vout.length)
    {s : CTransactionSignatureSerializer}
    (hs : s = CTransactionSignatureSerializer.create txTo scriptCode nIn nHashType) :
    writeCompactSize s.nOutputs ++ (List.range s.nOutputs).flatMap s.serializeOutput =
      writeVector CTxOut.serialize
        (if baseType nHashType = sigHashNone then []
        else if baseType nHashType = sigHashSingle then
          (txTo.vout.take (nIn + 1)).mapIdx fun i txout => if i < nIn then CTxOut.null else txout
        else txTo.vout) := by
  by_cases hnone : baseType nHashType = sigHashNone
  · have hn : s.nOutputs = 0 := by
      rw [hs, CTransactionSignatureSerializer.nOutputs, if_pos (fHashNone_create.mpr hnone)]
    rw [if_pos hnone, hn]
    rfl
  · rw [if_neg hnone]
    by_cases hone : baseType nHashType = sigHashSingle
    · have hlt := hsingle hone
      have hn : s.nOutputs = nIn + 1 := by
        rw [hs, CTransactionSignatureSerializer.nOutputs,
          if_neg (fun h => hnone (fHashNone_create.mp h)), if_pos (fHashSingle_create.mpr hone)]
        apply Nat.mod_eq_of_lt
        show nIn + 1 < 2 ^ 32
        omega
      have hlength : (txTo.vout.take (nIn + 1)).length = nIn + 1 := by
        rw [List.length_take]
        omega
      rw [if_pos hone, hn, writeVector, List.length_mapIdx, hlength, singleOutputs_eq hlt hs hone]
    · have hn : s.nOutputs = txTo.vout.length := by
        rw [hs, CTransactionSignatureSerializer.nOutputs,
          if_neg (fun h => hnone (fHashNone_create.mp h)),
          if_neg (fun h => hone (fHashSingle_create.mp h))]
        exact Nat.mod_eq_of_lt hvout
      rw [if_neg hone, hn, writeVector, allOutputs_eq hs hone]

variable (Hash : List UInt8 → Uint256) (amount : ℤ) (flags : Flags)

/-- **The serialiser writes what the original algorithm writes**, and the constant is returned in
the same cases. -/
theorem signatureHash_eq_old (hfork : nHashType &&& sigHashForkId = 0)
    (hparse : (CScript.walk scriptCode.length scriptCode).isSome = true)
    (hlen : scriptCode.length < 2 ^ 32) (hvin : txTo.vin.length < 2 ^ 32)
    (hvout : txTo.vout.length < 2 ^ 32) :
    signatureHashBytes Hash scriptCode txTo nIn amount nHashType flags =
        signatureHashOldBytes scriptCode txTo nIn nHashType ∧
      signatureHash Hash scriptCode txTo nIn amount nHashType flags =
        signatureHashOld Hash scriptCode txTo nIn nHashType := by
  have hbytes : signatureHashBytes Hash scriptCode txTo nIn amount nHashType flags =
      signatureHashOldBytes scriptCode txTo nIn nHashType := by
    unfold signatureHashBytes signatureHashOldBytes
    cases htxin : txTo.vin[nIn]? with
    | none => rfl
    | some txin =>
      dsimp only
      by_cases hout : baseType nHashType = sigHashSingle ∧ nIn ≥ txTo.vout.length
      · rw [if_pos hout, if_pos hout]
      · rw [if_neg hout, if_neg hout, if_neg (fun h => h.1 hfork), blankSequences_eq]
        have hins := inputs_eq nHashType hlen hparse hvin htxin rfl rfl
        have houts := outputs_eq scriptCode nIn nHashType hvout (fun h => by
          by_contra hn
          exact hout ⟨h, by omega⟩) rfl
        rw [CTransactionSignatureSerializer.serialize, hins, houts]
        rfl
  refine ⟨hbytes, ?_⟩
  rw [signatureHash, signatureHashOld, hbytes]

end

/-- Two inputs and one output. -/
def twoInputs : CTransaction where
  hash := 0
  nVersion := 1
  vin := [⟨⟨1, 0⟩, [], 0xFFFFFFFF⟩, ⟨⟨2, 1⟩, [], 7⟩]
  vout := [⟨1000, [op1]⟩]
  nLockTime := 0

theorem signatureHash_eq_old_twoInputs :
    signatureHashBytes (fun _ => 0) [op1, opCodeSeparator, opCheckSig] twoInputs 0 1000 0x83
        enableSigHashForkId =
      signatureHashOldBytes [op1, opCodeSeparator, opCheckSig] twoInputs 0 0x83 ∧
    signatureHash (fun _ => 0) [op1, opCodeSeparator, opCheckSig] twoInputs 0 1000 0x83
        enableSigHashForkId =
      signatureHashOld (fun _ => 0) [op1, opCodeSeparator, opCheckSig] twoInputs 0 0x83 :=
  signatureHash_eq_old (fun _ => 0) 1000 enableSigHashForkId (by decide) (by decide +kernel)
    (by decide) (by decide) (by decide)

end Script
