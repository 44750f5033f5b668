/-
# Coins in the database

`CCoins::Serialize`, `Unserialize` and `GetSerializeSize` (`libs/server/coins.h`).  A code word
holds whether the transaction is a coinbase, whether its first two outputs are unspent, and the
number of bytes that are not zero in a bit mask for the other outputs.  The mask is read until that
many such bytes have come by; then come the unspent outputs, in their compressed form.

The number is stored less one when both of the first outputs are spent, since it cannot be zero
then.
-/
import Hub.Coins
import Hub.Compressor

open ByteCodec Serialization VarInt

namespace CTxOutCompressor

variable (curve : Curve)

/-- `SerializationOp`, writing. -/
def serialize (txout : CTxOut) : List UInt8 :=
  writeVarInt (compressAmount (txout.nValue % 2 ^ 64).toNat)
    ++ CScriptCompressor.serialize curve txout.scriptPubKey

def getSerializeSize (txout : CTxOut) : ℕ :=
  getSizeOfVarInt (compressAmount (txout.nValue % 2 ^ 64).toNat)
    + CScriptCompressor.getSerializeSize curve txout.scriptPubKey

/-- `SerializationOp`, reading. -/
def unserialize : Reader String CTxOut := do
  let nVal ← readVarInt "CDataStream::read(): end of data"
  let scriptPubKey ← CScriptCompressor.unserialize curve
  pure ⟨(decompressAmount nVal : ℤ).bmod (2 ^ 64), scriptPubKey⟩

variable {curve}

/-- **An output comes back.** -/
theorem reads_unserialize (hcurve : FullyValidIffDecompressed curve) {txout : CTxOut}
    (h : 0 ≤ txout.nValue ∧ txout.nValue ≤ 2 ^ 60) :
    Reads (unserialize curve) (serialize curve txout) txout := by
  refine (reads_readVarInt _).bind
    ((CScriptCompressor.reads_unserialize hcurve txout.scriptPubKey).map ?_)
  have hback : ((decompressAmount (compressAmount (txout.nValue % 2 ^ 64).toNat) : ℕ) : ℤ)
      = txout.nValue := by
    rw [decompressAmount_compressAmount (by omega)]
    omega
  rw [hback, Int.bmod_def]
  cases txout
  simp only at h ⊢
  congr 1
  omega

theorem length_serialize (curve : Curve) (txout : CTxOut) :
    (serialize curve txout).length = getSerializeSize curve txout := by
  rw [serialize, getSerializeSize, List.length_append, length_writeVarInt,
    CScriptCompressor.length_serialize]

end CTxOutCompressor

namespace CCoins

/-! ## The code -/

/-- Which outputs are unspent. -/
def avail (vout : List CTxOut) : List Bool := vout.map fun o => !o.isNull

/-- The number with the given bits, lowest first. -/
def byteOfBits : List Bool → ℕ
  | [] => 0
  | b :: bits => b.toNat + 2 * byteOfBits bits

/-- Byte `b` of the mask. -/
def chAvail (vout : List CTxOut) (b : ℕ) : UInt8 :=
  UInt8.ofNat (byteOfBits (((avail vout).drop (2 + b * 8)).take 8))

/-- `CCoins::CalcMaskSize`: the number of bytes up to the last one that is not zero, and the number
of bytes that are not zero. -/
def calcMaskSize (vout : List CTxOut) : ℕ × ℕ :=
  (List.range ((vout.length - 2 + 7) / 8)).foldl
    (fun (nLastUsedByte, nNonzeroBytes) b =>
      if (((avail vout).drop (2 + b * 8)).take 8).any id then (b + 1, nNonzeroBytes + 1)
      else (nLastUsedByte, nNonzeroBytes))
    (0, 0)

/-- The code word, an `unsigned int`; `none` is the assertion that something is unspent. -/
def code (c : CCoins) : Option ℕ :=
  let nMaskCode := (calcMaskSize c.vout).2
  let fFirst := c.isAvailable 0
  let fSecond := c.isAvailable 1
  if fFirst || fSecond || nMaskCode ≠ 0 then
    some ((8 * (nMaskCode - if fFirst || fSecond then 0 else 1) + (if c.fCoinBase then 1 else 0)
      + (if fFirst then 2 else 0) + if fSecond then 4 else 0) % 2 ^ 32)
  else none

/-- `WriteVarInt` of an `int`: a negative number ends at once. -/
def writeInt (n : Int32) : List UInt8 :=
  if n < 0 then [UInt8.ofNat (n.toUInt32.toNat % 128)] else writeVarInt n.toUInt32.toNat

/-- `GetSizeOfVarInt` of an `int`. -/
def sizeOfInt (n : Int32) : ℕ := if n < 0 then 1 else getSizeOfVarInt n.toUInt32.toNat

variable (curve : Curve)

/-- `CCoins::Serialize`; `none` is a failed assertion. -/
def serialize (c : CCoins) : Option (List UInt8) :=
  (code c).map fun nCode =>
    writeInt c.nVersion ++ (writeVarInt nCode
      ++ ((List.range (calcMaskSize c.vout).1).map (chAvail c.vout)
        ++ ((c.vout.filter fun o => !o.isNull).flatMap (CTxOutCompressor.serialize curve)
          ++ writeInt c.nHeight)))

/-- `CCoins::GetSerializeSize`, an `unsigned int`; `none` is a failed assertion. -/
def getSerializeSize (c : CCoins) : Option ℕ :=
  (code c).map fun nCode =>
    (sizeOfInt c.nVersion + getSizeOfVarInt nCode + (calcMaskSize c.vout).1
      + ((c.vout.filter fun o => !o.isNull).map (CTxOutCompressor.getSerializeSize curve)).sum
      + sizeOfInt c.nHeight) % 2 ^ 32

/-- The loop that reads the mask until `nMaskCode` bytes that are not zero have come by. -/
def readMask : ℕ → Reader String (List Bool)
  | 0, s => .ok ([], s)
  | _ + 1, [] => .error "CDataStream::read(): end of data"
  | nMaskCode + 1, chAvail :: s =>
      (readMask (if chAvail ≠ 0 then nMaskCode else nMaskCode + 1) s).map fun (vAvail, s) =>
        ((List.range 8).map (fun p => chAvail.toNat.testBit p) ++ vAvail, s)

/-- The loop that reads the outputs that are there. -/
def readOutputs : List Bool → Reader String (List CTxOut)
  | [] => pure []
  | false :: vAvail => do
      let vout ← readOutputs vAvail
      pure (CTxOut.null :: vout)
  | true :: vAvail => do
      let txout ← CTxOutCompressor.unserialize curve
      let vout ← readOutputs vAvail
      pure (txout :: vout)

/-- `CCoins::Unserialize`. -/
def unserialize : Reader String CCoins := do
  let nVersion ← readVarInt "CDataStream::read(): end of data"
  let nCode ← readVarInt "CDataStream::read(): end of data"
  let nCode := nCode % 2 ^ 32
  let fFirst : Bool := nCode / 2 % 2 = 1
  let fSecond : Bool := nCode / 4 % 2 = 1
  let nMaskCode := nCode / 8 + if fFirst || fSecond then 0 else 1
  let vAvail ← readMask nMaskCode
  let vout ← readOutputs curve (fFirst :: fSecond :: vAvail)
  let nHeight ← readVarInt "CDataStream::read(): end of data"
  pure (cleanup ⟨nCode % 2 = 1, vout, Int32.ofNat nHeight, Int32.ofNat nVersion⟩)

variable {curve}

/-! ## The mask -/

theorem testBit_byteOfBits : ∀ (bits : List Bool) (p : ℕ),
    (byteOfBits bits).testBit p = bits.getD p false := by
  intro bits
  induction bits with
  | nil =>
    intro p
    simp [byteOfBits]
  | cons b bits ih =>
    intro p
    have hval : byteOfBits (b :: bits) = Nat.bit b (byteOfBits bits) := by
      rw [byteOfBits, Nat.bit_val]
      omega
    rw [hval]
    cases p with
    | zero => rw [Nat.testBit_bit_zero, List.getD_cons_zero]
    | succ p => rw [Nat.testBit_succ, Nat.bit_div_two, ih, List.getD_cons_succ]

theorem byteOfBits_lt : ∀ bits : List Bool, byteOfBits bits < 2 ^ bits.length := by
  intro bits
  induction bits with
  | nil => decide
  | cons b bits ih =>
    have hb : b.toNat ≤ 1 := Bool.toNat_le b
    rw [byteOfBits, List.length_cons, pow_succ]
    omega

theorem byteOfBits_eq_zero : ∀ bits : List Bool, byteOfBits bits = 0 ↔ bits.any id = false := by
  intro bits
  induction bits with
  | nil => simp [byteOfBits]
  | cons b bits ih =>
    rw [byteOfBits, List.any_cons]
    cases b with
    | false => simpa using ih
    | true => simp

/-- A byte of the mask has the bits that went into it, and zeros behind them. -/
theorem bits_of_byteOfBits {bits : List Bool} (h : bits.length ≤ 8) :
    (List.range 8).map (fun p => (UInt8.ofNat (byteOfBits bits)).toNat.testBit p)
      = bits ++ List.replicate (8 - bits.length) false := by
  have hlt : byteOfBits bits < 256 :=
    lt_of_lt_of_le (byteOfBits_lt bits) (Nat.pow_le_pow_right (by decide) h : _ ≤ 2 ^ 8)
  rw [UInt8.toNat_ofNat', Nat.mod_eq_of_lt hlt]
  apply List.ext_getElem
  · simp
    omega
  · intro p hp hp'
    rw [List.getElem_map, List.getElem_range, testBit_byteOfBits]
    by_cases hin : p < bits.length
    · rw [List.getElem_append_left hin, List.getD_eq_getElem?_getD,
        List.getElem?_eq_getElem hin, Option.getD_some]
    · rw [List.getElem_append_right (by omega), List.getElem_replicate,
        List.getD_eq_getElem?_getD, List.getElem?_eq_none (by omega), Option.getD_none]

theorem ofNat_byteOfBits_ne_zero {bits : List Bool} (h : bits.length ≤ 8) :
    UInt8.ofNat (byteOfBits bits) ≠ 0 ↔ bits.any id = true := by
  have hlt : byteOfBits bits < 256 :=
    lt_of_lt_of_le (byteOfBits_lt bits) (Nat.pow_le_pow_right (by decide) h : _ ≤ 2 ^ 8)
  rw [← Bool.not_eq_false, ← byteOfBits_eq_zero, not_iff_not, ← UInt8.toNat_inj,
    UInt8.toNat_ofNat', Nat.mod_eq_of_lt hlt]
  rfl

/-- **The mask is read to its end**: as many bytes that are not zero as were counted come up to the
last byte. -/
theorem reads_readMask : ∀ mask : List UInt8, (∀ b ∈ mask.getLast?, b ≠ 0) →
    Reads (readMask (mask.countP (· ≠ 0))) mask
      (mask.flatMap fun b => (List.range 8).map fun p => b.toNat.testBit p) := by
  intro mask
  induction mask with
  | nil =>
    intro _ rest
    rw [List.countP_nil, readMask]
    rfl
  | cons b mask ih =>
    intro hlast rest
    have htail : ∀ b ∈ mask.getLast?, b ≠ 0 := by
      intro b' hb'
      apply hlast b'
      cases mask with
      | nil => cases hb'
      | cons c mask => exact hb'
    by_cases hb : b = 0
    · -- the last byte is still to come
      have hne : mask.countP (· ≠ 0) ≠ 0 := by
        cases mask with
        | nil => exact absurd hb (hlast b rfl)
        | cons c mask =>
          intro hzero
          have hmem := List.getLast_mem (List.cons_ne_nil c mask)
          have hall := List.countP_eq_zero.mp hzero _ hmem
          exact hall (by simpa using htail _ (List.getLast?_eq_some_getLast (by simp)))
      obtain ⟨n, hn⟩ := Nat.exists_eq_succ_of_ne_zero hne
      have hcount : (b :: mask).countP (· ≠ 0) = n + 1 := by
        rw [List.countP_cons_of_neg (by simpa using hb), hn]
      have hrec := ih htail rest
      rw [hn] at hrec
      rw [hcount, List.cons_append, readMask, if_neg (by simpa using hb), hrec]
      rfl
    · have hcount : (b :: mask).countP (· ≠ 0) = mask.countP (· ≠ 0) + 1 :=
        List.countP_cons_of_pos (by simpa using hb)
      rw [hcount, List.cons_append, readMask, if_pos hb, ih htail rest]
      rfl

/-! ## The bytes of the mask -/

/-- In pieces of eight bits, padded with zeros, the bits are all there. -/
theorem flatMap_pieces : ∀ (n : ℕ) (bits : List Bool), bits.length ≤ 8 * n →
    (List.range n).flatMap (fun b => ((bits.drop (b * 8)).take 8)
        ++ List.replicate (8 - ((bits.drop (b * 8)).take 8).length) false)
      = bits ++ List.replicate (8 * n - bits.length) false := by
  intro n
  induction n with
  | zero =>
    intro bits h
    obtain rfl : bits = [] := List.length_eq_zero_iff.mp (by omega)
    rfl
  | succ n ih =>
    intro bits h
    have hrest := ih (bits.drop 8) (by rw [List.length_drop]; omega)
    have hshift : ∀ b, bits.drop ((b + 1) * 8) = (bits.drop 8).drop (b * 8) := by
      intro b
      rw [List.drop_drop]
      congr 1
      omega
    rw [List.range_succ_eq_map, List.flatMap_cons, List.flatMap_map]
    simp only [Nat.succ_eq_add_one, hshift, hrest, Nat.zero_mul, List.drop_zero]
    by_cases hlen : 8 ≤ bits.length
    · have htake : (bits.take 8).length = 8 := by
        rw [List.length_take]
        omega
      rw [htake, Nat.sub_self, List.replicate_zero, List.append_nil, ← List.append_assoc,
        List.take_append_drop, List.length_drop]
      congr 2
      omega
    · rw [List.take_of_length_le (by omega), List.drop_of_length_le (by omega), List.nil_append,
        List.append_assoc, List.replicate_append_replicate, List.length_nil]
      congr 2
      omega

/-- The piece of the bits that goes into byte `b`. -/
def piece (vout : List CTxOut) (b : ℕ) : List Bool := ((avail vout).drop (2 + b * 8)).take 8

theorem length_piece_le (vout : List CTxOut) (b : ℕ) : (piece vout b).length ≤ 8 := by
  rw [piece, List.length_take]
  omega

/-- `CalcMaskSize` counts the bytes that are not zero. -/
theorem calcMaskSize_count (vout : List CTxOut) :
    (calcMaskSize vout).2 = ((List.range ((vout.length - 2 + 7) / 8)).map (chAvail vout)).countP
      (· ≠ 0) := by
  rw [calcMaskSize]
  generalize (vout.length - 2 + 7) / 8 = n
  induction n with
  | zero => rfl
  | succ n ih =>
    rw [List.range_succ, List.foldl_append, List.map_append, List.countP_append, ← ih]
    simp only [List.foldl_cons, List.foldl_nil, List.map_cons, List.map_nil]
    by_cases hpiece : (piece vout n).any id = true
    · have hne : chAvail vout n ≠ 0 := (ofNat_byteOfBits_ne_zero (length_piece_le vout n)).mpr hpiece
      rw [if_pos (by exact hpiece), List.countP_cons_of_pos (by simpa using hne), List.countP_nil]
    · have heq : ¬ chAvail vout n ≠ 0 := fun hne =>
        hpiece ((ofNat_byteOfBits_ne_zero (length_piece_le vout n)).mp hne)
      rw [if_neg (by exact hpiece), List.countP_cons_of_neg (by simpa using heq), List.countP_nil,
        Nat.add_zero]

/-- With an unspent output at the end, the last byte of the mask is not zero. -/
theorem any_piece_of_last {vout : List CTxOut} {n : ℕ} (hn : (vout.length - 2 + 7) / 8 = n + 1)
    (hlast : ∀ o ∈ vout.getLast?, o.isNull = false) : (piece vout n).any id = true := by
  have hlen : (avail vout).length = vout.length := List.length_map _
  have hend : (avail vout)[vout.length - 1]? = some true := by
    rw [avail, List.getElem?_map, ← List.getLast?_eq_getElem?]
    cases hl : vout.getLast? with
    | none =>
      rw [List.getLast?_eq_none_iff] at hl
      rw [hl] at hn
      simp at hn
    | some o =>
      rw [Option.map_some, hlast o hl]
      rfl
  rw [List.any_eq_true]
  refine ⟨true, ?_, rfl⟩
  apply List.mem_of_getElem? (i := vout.length - 1 - (2 + n * 8))
  rw [piece, List.getElem?_take_of_lt (by omega), List.getElem?_drop]
  rw [← hend]
  congr 1
  omega

theorem calcMaskSize_size {vout : List CTxOut} (hlast : ∀ o ∈ vout.getLast?, o.isNull = false) :
    (calcMaskSize vout).1 = (vout.length - 2 + 7) / 8 := by
  cases hn : (vout.length - 2 + 7) / 8 with
  | zero =>
    rw [calcMaskSize, hn]
    rfl
  | succ n =>
    have hpiece := any_piece_of_last hn hlast
    rw [calcMaskSize, hn, List.range_succ, List.foldl_append]
    simp only [List.foldl_cons, List.foldl_nil]
    rw [if_pos (by exact hpiece)]

/-- The bits that are read: those of the outputs behind the first two, and zeros. -/
theorem reads_mask {vout : List CTxOut} (hlast : ∀ o ∈ vout.getLast?, o.isNull = false) :
    ∃ k, Reads (readMask (calcMaskSize vout).2)
      ((List.range (calcMaskSize vout).1).map (chAvail vout))
      ((avail vout).drop 2 ++ List.replicate k false) := by
  rw [calcMaskSize_size hlast, calcMaskSize_count]
  have hmask : ∀ b ∈ ((List.range ((vout.length - 2 + 7) / 8)).map (chAvail vout)).getLast?,
      b ≠ 0 := by
    intro b hb
    cases hn : (vout.length - 2 + 7) / 8 with
    | zero =>
      rw [hn] at hb
      cases hb
    | succ n =>
      rw [hn, List.range_succ, List.map_append, List.map_singleton,
        List.getLast?_append_cons, List.getLast?_singleton] at hb
      obtain rfl := Option.some.inj hb
      exact (ofNat_byteOfBits_ne_zero (length_piece_le vout n)).mpr (any_piece_of_last hn hlast)
  have hread := reads_readMask _ hmask
  refine ⟨8 * ((vout.length - 2 + 7) / 8) - ((avail vout).drop 2).length, ?_⟩
  rw [List.flatMap_map] at hread
  have hpieces : ∀ b, (List.range 8).map (fun p => (chAvail vout b).toNat.testBit p)
      = (((avail vout).drop 2).drop (b * 8)).take 8
        ++ List.replicate (8 - ((((avail vout).drop 2).drop (b * 8)).take 8).length) false := by
    intro b
    rw [List.drop_drop]
    exact bits_of_byteOfBits (length_piece_le vout b)
  simp only [hpieces] at hread
  rwa [flatMap_pieces _ _ (by
    rw [List.length_drop, avail, List.length_map]
    omega)] at hread

/-! ## The round trip -/

/-- The outputs are read where they are, and null outputs where they are not. -/
theorem reads_readOutputs (hcurve : FullyValidIffDecompressed curve) (k : ℕ) :
    ∀ vout : List CTxOut, (∀ o ∈ vout, if o.isNull then o = CTxOut.null
        else 0 ≤ o.nValue ∧ o.nValue ≤ 2 ^ 60) →
    Reads (readOutputs curve (avail vout ++ List.replicate k false))
      ((vout.filter fun o => !o.isNull).flatMap (CTxOutCompressor.serialize curve))
      (vout ++ List.replicate k CTxOut.null) := by
  intro vout
  induction vout with
  | nil =>
    intro _
    induction k with
    | zero => exact reads_pure []
    | succ k ih => exact ih.map rfl
  | cons o vout ih =>
    intro h
    have htail := ih fun o ho => h o (List.mem_cons_of_mem _ ho)
    have hhead := h o List.mem_cons_self
    by_cases hnull : o.isNull = true
    · rw [if_pos hnull] at hhead
      subst hhead
      exact htail.map rfl
    · have hnull' : o.isNull = false := by simpa using hnull
      rw [if_neg hnull] at hhead
      have hbits : avail (o :: vout) = true :: avail vout := by
        rw [avail, List.map_cons, hnull']
        rfl
      rw [hbits, List.filter_cons_of_pos (by simpa using hnull'), List.flatMap_cons]
      exact (CTxOutCompressor.reads_unserialize hcurve hhead).bind (htail.map rfl)

/-- What was written of an `int` that is not negative. -/
theorem reads_writeInt {n : Int32} (h : 0 ≤ n) :
    Reads (readVarInt "CDataStream::read(): end of data" : Reader String ℕ) (writeInt n)
        n.toUInt32.toNat ∧ Int32.ofNat n.toUInt32.toNat = n := by
  have hneg : ¬ n < 0 := Int32.not_lt.mpr h
  refine ⟨?_, ?_⟩
  · rw [writeInt, if_neg hneg]
    exact reads_readVarInt _
  · have hword : (Int32.ofNat n.toUInt32.toNat).toUInt32 = n.toUInt32 := by
      rw [Int32.toUInt32_ofNat', UInt32.ofNat_toNat]
    rw [← Int32.toInt32_toUInt32 (Int32.ofNat _), hword, Int32.toInt32_toUInt32]

theorem length_writeInt (n : Int32) : (writeInt n).length = sizeOfInt n := by
  rw [writeInt, sizeOfInt]
  split
  · rfl
  · exact length_writeVarInt _

/-- Null outputs that are read behind the last output go away again. -/
theorem cleanup_replicate {c : CCoins} (hc : c.Clean) (k : ℕ) :
    cleanup { c with vout := c.vout ++ List.replicate k CTxOut.null } = c := by
  induction k with
  | zero =>
    rw [List.replicate_zero, List.append_nil]
    exact hc
  | succ k ih =>
    rw [cleanup] at ih ⊢
    rw [List.replicate_succ', ← List.append_assoc]
    simp only
    rw [List.rdropWhile_concat_pos _ _ _ CTxOut.isNull_null]
    exact ih

/-- The last output of clean coins is unspent. -/
theorem Clean.last {c : CCoins} (hc : c.Clean) : ∀ o ∈ c.vout.getLast?, o.isNull = false := by
  intro o ho
  have hdrop : c.vout.rdropWhile CTxOut.isNull = c.vout := congrArg CCoins.vout hc
  cases hv : c.vout with
  | nil =>
    rw [hv] at ho
    cases ho
  | cons o' vout =>
    have hne : c.vout ≠ [] := by rw [hv]; exact List.cons_ne_nil _ _
    have hlast := List.rdropWhile_eq_self_iff.mp hdrop hne
    rw [List.getLast?_eq_some_getLast hne] at ho
    obtain rfl := Option.some.inj ho
    simpa using hlast

/-- Coins that are not pruned have a code word: their last output is one of the first two, or its
bit is in the mask. -/
theorem code_of_not_pruned {c : CCoins} (hc : c.Clean) (hp : c.isPruned = false) :
    (c.isAvailable 0 || c.isAvailable 1) = true ∨ (calcMaskSize c.vout).2 ≠ 0 := by
  have hne : c.vout ≠ [] := by
    intro hnil
    rw [hc.isPruned_iff.mpr hnil] at hp
    cases hp
  have hlen : 0 < c.vout.length := List.length_pos_of_ne_nil hne
  have hend : c.isAvailable (c.vout.length - 1) = true := by
    rw [isAvailable, ← List.getLast?_eq_getElem?, List.getLast?_eq_some_getLast hne]
    simpa using hc.last _ (List.getLast?_eq_some_getLast hne)
  by_cases hfew : c.vout.length ≤ 2
  · left
    have hpos : c.vout.length - 1 = 0 ∨ c.vout.length - 1 = 1 := by omega
    rcases hpos with hpos | hpos
    · rw [hpos] at hend
      rw [hend, Bool.true_or]
    · rw [hpos] at hend
      rw [hend, Bool.or_true]
  · right
    obtain ⟨n, hn⟩ : ∃ n, (c.vout.length - 2 + 7) / 8 = n + 1 :=
      Nat.exists_eq_succ_of_ne_zero (by omega)
    have hany := any_piece_of_last hn hc.last
    rw [calcMaskSize_count, hn, List.range_succ, List.map_append, List.countP_append,
      List.map_singleton, List.countP_cons_of_pos (by
        exact decide_eq_true ((ofNat_byteOfBits_ne_zero (length_piece_le c.vout n)).mpr hany))]
    omega

/-- Where the first two outputs stand in the bits. -/
theorem availables_append (c : CCoins) (k : ℕ) :
    ∃ k', c.isAvailable 0 :: c.isAvailable 1 ::
        ((avail c.vout).drop 2 ++ List.replicate k false)
      = avail c.vout ++ List.replicate k' false := by
  obtain ⟨fCoinBase, vout, nHeight, nVersion⟩ := c
  match vout with
  | [] => exact ⟨k + 2, rfl⟩
  | [o] => exact ⟨k + 1, rfl⟩
  | o :: o' :: vout => exact ⟨k, rfl⟩

/-- The parts of the code word. -/
theorem decode_code (coinBase first second : Bool) {n : ℕ}
    (h : (first || second) = true ∨ n ≠ 0) :
    let nCode := 8 * (n - if first || second then 0 else 1) + (if coinBase then 1 else 0)
      + (if first then 2 else 0) + if second then 4 else 0
    decide (nCode % 2 = 1) = coinBase ∧ decide (nCode / 2 % 2 = 1) = first ∧
      decide (nCode / 4 % 2 = 1) = second ∧
      nCode / 8 + (if first || second then 0 else 1) = n := by
  cases coinBase <;> cases first <;> cases second <;> simp at h ⊢ <;> omega

/-- The code word does not wrap. -/
theorem code_lt {c : CCoins} (hlength : c.vout.length < 2 ^ 31) :
    8 * ((calcMaskSize c.vout).2 - if c.isAvailable 0 || c.isAvailable 1 then 0 else 1)
      + (if c.fCoinBase then 1 else 0) + (if c.isAvailable 0 then 2 else 0)
      + (if c.isAvailable 1 then 4 else 0) < 2 ^ 32 := by
  have hmask : (calcMaskSize c.vout).2 ≤ (c.vout.length - 2 + 7) / 8 := by
    rw [calcMaskSize_count]
    refine List.countP_le_length.trans ?_
    rw [List.length_map, List.length_range]
  split_ifs <;> omega

/-- **The record comes back**, with whatever is behind it left over, and its size is the one that
was announced, unless there are too many outputs or bytes for an `unsigned int`. -/
theorem coins_roundTrip (hcurve : FullyValidIffDecompressed curve) {c : CCoins}
    (hp : c.isPruned = false) (hc : c.Canonical) (hlength : c.vout.length < 2 ^ 31)
    (hheight : 0 ≤ c.nHeight) (hversion : 0 ≤ c.nVersion)
    (hvalues : ∀ o ∈ c.vout, o.isNull = false → 0 ≤ o.nValue ∧ o.nValue ≤ Validation.maxMoney) :
    ∃ bytes, c.serialize curve = some bytes ∧ Reads (unserialize curve) bytes c ∧
      (bytes.length < 2 ^ 32 → c.getSerializeSize curve = some bytes.length) := by
  have hsome := code_of_not_pruned hc.clean hp
  obtain ⟨k, hmask⟩ := reads_mask hc.clean.last
  obtain ⟨k', hbits⟩ := availables_append c k
  obtain ⟨hreadVersion, hbackVersion⟩ := reads_writeInt hversion
  obtain ⟨hreadHeight, hbackHeight⟩ := reads_writeInt hheight
  have houts := reads_readOutputs hcurve k' c.vout (by
    intro o ho
    by_cases hnull : o.isNull = true
    · rw [if_pos hnull]
      exact hc.nulls o ho hnull
    · rw [if_neg hnull]
      have hvalue := hvalues o ho (by simpa using hnull)
      rw [Validation.maxMoney] at hvalue
      omega)
  rw [← hbits] at houts
  have hcode : code c = some (8 * ((calcMaskSize c.vout).2
      - if c.isAvailable 0 || c.isAvailable 1 then 0 else 1) + (if c.fCoinBase then 1 else 0)
      + (if c.isAvailable 0 then 2 else 0) + if c.isAvailable 1 then 4 else 0) := by
    rw [code]
    exact (if_pos (by simpa using hsome)).trans
      (congrArg some (Nat.mod_eq_of_lt (code_lt hlength)))
  have hlt := code_lt hlength
  have hparts := decode_code c.fCoinBase (c.isAvailable 0) (c.isAvailable 1) hsome
  rw [serialize, getSerializeSize, hcode]
  generalize 8 * ((calcMaskSize c.vout).2
      - if c.isAvailable 0 || c.isAvailable 1 then 0 else 1) + (if c.fCoinBase then 1 else 0)
      + (if c.isAvailable 0 then 2 else 0) + (if c.isAvailable 1 then 4 else 0) = nCode
    at hparts hlt
  obtain ⟨hcoinBase, hfirst, hsecond, hcount⟩ := hparts
  refine ⟨_, rfl, ?_, fun hsize => ?_⟩
  · refine hreadVersion.bind ((reads_readVarInt nCode).bind ?_)
    simp only [Nat.mod_eq_of_lt hlt, hcoinBase, hfirst, hsecond, hcount, hbackVersion]
    refine hmask.bind (houts.bind (hreadHeight.map ?_))
    rw [hbackHeight]
    exact cleanup_replicate hc.clean k'
  · have houtsLength : ((c.vout.filter fun o => !o.isNull).flatMap
          (CTxOutCompressor.serialize curve)).length
        = ((c.vout.filter fun o => !o.isNull).map
            (CTxOutCompressor.getSerializeSize curve)).sum := by
      rw [List.length_flatMap]
      congr 1
      exact List.map_congr_left fun o _ => CTxOutCompressor.length_serialize curve o
    simp only [Option.map_some, List.length_append, length_writeInt, length_writeVarInt,
      List.length_map, List.length_range, houtsLength] at hsize ⊢
    congr 1
    omega

/-- The coordinates of the generator. -/
def generatorX : List UInt8 :=
  [0x79, 0xBE, 0x66, 0x7E, 0xF9, 0xDC, 0xBB, 0xAC, 0x55, 0xA0, 0x62, 0x95,
   0xCE, 0x87, 0x0B, 0x07, 0x02, 0x9B, 0xFC, 0xDB, 0x2D, 0xCE, 0x28, 0xD9,
   0x59, 0xF2, 0x81, 0x5B, 0x16, 0xF8, 0x17, 0x98]

def generatorY : List UInt8 :=
  [0x48, 0x3A, 0xDA, 0x77, 0x26, 0xA3, 0xC4, 0x65, 0x5D, 0xA4, 0xFB, 0xFC,
   0x0E, 0x11, 0x08, 0xA8, 0xFD, 0x17, 0xB4, 0x48, 0xA6, 0x85, 0x54, 0x19,
   0x9C, 0x47, 0xD0, 0x8F, 0xFB, 0x10, 0xD4, 0xB8]

/-- A curve of which only the generator is known. -/
def generatorCurve : Curve :=
  ⟨fun pubkey => pubkey == 4 :: (generatorX ++ generatorY), fun pubkey =>
    if pubkey = compressedKey generatorX generatorY then some (4 :: (generatorX ++ generatorY))
    else none⟩

theorem fullyValidIffDecompressed_generator : FullyValidIffDecompressed generatorCurve := by
  intro x y hx hy
  rw [generatorCurve]
  simp only [beq_iff_eq, Option.ite_none_right_eq_some, Option.some.injEq]
  constructor
  · intro h
    obtain ⟨rfl, rfl⟩ := List.append_inj (List.cons.inj h).2 (by rw [hx]; rfl)
    exact ⟨rfl, rfl⟩
  · rintro ⟨-, h⟩
    exact h.symm

/-- A coinbase with both of its first outputs spent, a public key and a key hash. -/
def generatorCoins : CCoins :=
  ⟨true, [CTxOut.null, CTxOut.null,
      ⟨5000000000, 65 :: 4 :: (generatorX ++ (generatorY ++ [Opcode.opCheckSig]))⟩, CTxOut.null,
      ⟨110397, [Opcode.opDup, Opcode.opHash160, 20] ++ (List.replicate 20 7
        ++ [Opcode.opEqualVerify, Opcode.opCheckSig])⟩], 120891, 1⟩

theorem coins_roundTrip_generator : generatorCoins.Canonical ∧
    ∃ bytes, generatorCoins.serialize generatorCurve = some bytes ∧
      Reads (unserialize generatorCurve) bytes generatorCoins ∧
      (bytes.length < 2 ^ 32 →
        generatorCoins.getSerializeSize generatorCurve = some bytes.length) := by
  have hcanonical : generatorCoins.Canonical := ⟨by decide, by decide⟩
  refine ⟨hcanonical, coins_roundTrip fullyValidIffDecompressed_generator (by decide)
    hcanonical (by decide) (by decide) (by decide) ?_⟩
  decide

/-- A null output that has a script does not come back: nothing of it is stored. -/
theorem not_coins_roundTrip_nullScript :
    ¬ ∀ curve, FullyValidIffDecompressed curve → ∀ c : CCoins, c.isPruned = false → c.Clean →
      0 ≤ c.nHeight → 0 ≤ c.nVersion →
      (∀ o ∈ c.vout, o.isNull = false → 0 ≤ o.nValue ∧ o.nValue ≤ Validation.maxMoney) →
      ∃ bytes c', c.serialize curve = some bytes ∧ Reads (unserialize curve) bytes c' ∧
        c'.same c = true ∧ c.getSerializeSize curve = some bytes.length := by
  intro h
  let c : CCoins := ⟨false, [⟨-1, [1]⟩, ⟨5, []⟩], 0, 0⟩
  have hwritten : c.serialize generatorCurve = some [0, 4, 41, 6, 0] := by
    decide +kernel
  have hthere : unserialize generatorCurve [0, 4, 41, 6, 0]
      = .ok (⟨false, [CTxOut.null, ⟨5, []⟩], 0, 0⟩, []) := by decide +kernel
  obtain ⟨bytes, c', hbytes, hread, hsame, -⟩ := h generatorCurve
    fullyValidIffDecompressed_generator c (by decide) (by decide) (by decide) (by decide)
    (by decide)
  obtain rfl := Option.some.inj (hwritten.symm.trans hbytes)
  have hback := hthere.symm.trans (hread [])
  obtain rfl := congrArg Prod.fst (Except.ok.inj hback)
  exact absurd hsame (by decide)

end CCoins
