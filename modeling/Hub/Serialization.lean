/-
# The serialisation of transactions and blocks

The byte format of `libs/utils/serialize.h` for the types of `libs/server/primitives`:
numbers are little endian, and a vector or a script is its length as a *compact size* of
one, three, five or nine bytes, followed by its elements.  Reading refuses lengths above
`MAX_SIZE`.

A vector of objects is resized in steps of five million bytes while it is read, and a
script is read in such steps; the bytes that are read, and the errors, are the same as
without steps.

* `CBlock.reads_unserialize` : a block whose lengths are all accepted is read back, with
  the hashes of its transactions computed anew;
* `CBlock.fails_unserialize` : any other block is refused.
-/
import Hub.ByteCodec
import Hub.Transaction

open ByteCodec

namespace Serialization

/-! ## Lengths -/

/-- `MAX_SIZE`. -/
def maxSize : ℕ := 0x02000000

/-- `WriteCompactSize`. -/
def writeCompactSize (nSize : ℕ) : List UInt8 :=
  if nSize < 253 then leBytes 1 nSize
  else if nSize ≤ 0xFFFF then leBytes 1 253 ++ leBytes 2 nSize
  else if nSize ≤ 0xFFFFFFFF then leBytes 1 254 ++ leBytes 4 nSize
  else leBytes 1 255 ++ leBytes 8 nSize

/-- `CDataStream::read`. -/
def readBytes (n : ℕ) : Reader String (List UInt8) := fun s =>
  if s.length < n then .error "CDataStream::read(): end of data"
  else .ok (s.take n, s.drop n)

/-- `ser_readdata8` to `ser_readdata64`: a number of `k` bytes. -/
def readData (k : ℕ) : Reader String ℕ := do
  let bytes ← readBytes k
  pure (leNat bytes)

/-- A number of `k` bytes that has no shorter form. -/
def readCanonical (k least : ℕ) : Reader String ℕ := do
  let n ← readData k
  if n < least then throw "non-canonical ReadCompactSize()" else pure n

/-- The error that a length above `MAX_SIZE` raises. -/
def tooLarge : String := "ReadCompactSize(): size too large"

/-- The first part of `ReadCompactSize`: the number, in the form that its first byte
tells. -/
def readCompactNumber : Reader String ℕ := do
  let chSize ← readData 1
  if chSize < 253 then pure chSize
  else if chSize = 253 then readCanonical 2 253
  else if chSize = 254 then readCanonical 4 0x10000
  else readCanonical 8 0x100000000

/-- `ReadCompactSize`. -/
def readCompactSize : Reader String ℕ := do
  let nSizeRet ← readCompactNumber
  if nSizeRet > maxSize then throw tooLarge else pure nSizeRet

theorem reads_readBytes (bytes : List UInt8) : Reads (readBytes bytes.length) bytes bytes := by
  intro rest
  rw [readBytes, if_neg (by rw [List.length_append]; omega), List.take_left, List.drop_left]

theorem reads_readData {k n : ℕ} (h : n < 256 ^ k) : Reads (readData k) (leBytes k n) n := by
  have hread := reads_readBytes (leBytes k n)
  rw [length_leBytes] at hread
  exact hread.map (leNat_leBytes k n h)

theorem reads_readCanonical {k least n : ℕ} (h : n < 256 ^ k) (hleast : least ≤ n) :
    Reads (readCanonical k least) (leBytes k n) n := by
  have hread := (reads_readData h).bind
    (f := fun n => if n < least then throw "non-canonical ReadCompactSize()" else pure n)
    (c := []) (y := n) (by
      rw [if_neg (by omega)]
      exact reads_pure n)
  rwa [List.append_nil] at hread

theorem reads_readCompactNumber {n : ℕ} (hn : n < 2 ^ 64) :
    Reads readCompactNumber (writeCompactSize n) n := by
  -- the first byte, and what it selects
  have hfirst : ∀ {c : ℕ} {b : List UInt8}, c < 256 →
      Reads (if c < 253 then pure c
        else if c = 253 then readCanonical 2 253
        else if c = 254 then readCanonical 4 0x10000
        else readCanonical 8 0x100000000 : Reader String ℕ) b n →
      Reads readCompactNumber (leBytes 1 c ++ b) n := by
    intro c b hc h
    exact (reads_readData (by simpa using hc)).bind h
  unfold writeCompactSize
  split_ifs with h₁ h₂ h₃
  · have h := hfirst (c := n) (b := []) (by omega) (by
      rw [if_pos h₁]
      exact reads_pure n)
    rwa [List.append_nil] at h
  · exact hfirst (by omega) (reads_readCanonical (by omega) (by omega))
  · exact hfirst (by omega) (reads_readCanonical (by omega) (by omega))
  · exact hfirst (by omega) (reads_readCanonical (by omega) (by omega))

theorem reads_readCompactSize {n : ℕ} (h : n ≤ maxSize) :
    Reads readCompactSize (writeCompactSize n) n := by
  have hn : n < 2 ^ 64 := lt_of_le_of_lt h (by decide)
  have hread := (reads_readCompactNumber hn).bind
    (f := fun n => if n > maxSize then throw tooLarge else pure n) (c := []) (y := n) (by
      rw [if_neg (by omega)]
      exact reads_pure n)
  rwa [List.append_nil] at hread

theorem fails_readCompactSize {n : ℕ} (hn : n < 2 ^ 64) (h : maxSize < n) :
    Fails readCompactSize (writeCompactSize n) tooLarge := by
  have hread := (reads_readCompactNumber hn).bind_fails
    (f := fun n => if n > maxSize then throw tooLarge else pure n) (c := []) (e := tooLarge) (by
      rw [if_pos h]
      exact fun _ => rfl)
  rwa [List.append_nil] at hread

theorem length_writeCompactSize (n : ℕ) :
    (writeCompactSize n).length = CTransaction.sizeOfCompactSize n := by
  unfold writeCompactSize CTransaction.sizeOfCompactSize
  split_ifs <;> simp

theorem length_writeCompactSize_pos (n : ℕ) : 0 < (writeCompactSize n).length := by
  unfold writeCompactSize
  split_ifs <;> simp

/-! ## Vectors and scripts -/

/-- `Serialize` of a vector of objects. -/
def writeVector {α : Type} (write : α → List UInt8) (v : List α) : List UInt8 :=
  writeCompactSize v.length ++ v.flatMap write

/-- `Unserialize` of a vector of objects. -/
def readVector {α : Type} (read : Reader String α) : Reader String (List α) := do
  let nSize ← readCompactSize
  many read nSize

/-- `Serialize` of a `CScript`. -/
def writeScript (script : List UInt8) : List UInt8 := writeCompactSize script.length ++ script

/-- `Unserialize` of a `CScript`. -/
def readScript : Reader String (List UInt8) := do
  let nSize ← readCompactSize
  readBytes nSize

theorem reads_readScript {script : List UInt8} (h : script.length ≤ maxSize) :
    Reads readScript (writeScript script) script :=
  (reads_readCompactSize h).bind (reads_readBytes script)

theorem fails_readScript {script : List UInt8} (hn : script.length < 2 ^ 64)
    (h : maxSize < script.length) : Fails readScript (writeScript script) tooLarge :=
  (fails_readCompactSize hn h).bind script

section Vector

variable {α β : Type} {read : Reader String β} {write : α → List UInt8} {g : α → β}

theorem reads_readVector {v : List α} (hlen : v.length ≤ maxSize)
    (h : ∀ x ∈ v, Reads read (write x) (g x)) :
    Reads (readVector read) (writeVector write v) (v.map g) :=
  (reads_readCompactSize hlen).bind (Reads.many v h)

/-- A vector is refused when it is too long, or when one of its elements is. -/
theorem fails_readVector {v : List α} (hn : v.length < 2 ^ 64) {P : α → Prop}
    (hreads : ∀ x ∈ v, P x → Reads read (write x) (g x))
    (hfails : ∀ x ∈ v, ¬ P x → Fails read (write x) tooLarge)
    (h : ¬ (v.length ≤ maxSize ∧ ∀ x ∈ v, P x)) :
    Fails (readVector read) (writeVector write v) tooLarge := by
  by_cases hlen : v.length ≤ maxSize
  · push Not at h
    obtain ⟨x, hx, hPx⟩ := h hlen
    refine (reads_readCompactSize hlen).bind_fails (Fails.many (g := g) v ?_ ⟨x, hx, hfails x hx hPx⟩)
    intro y hy
    by_cases hPy : P y
    · exact .inl (hreads y hy hPy)
    · exact .inr (hfails y hy hPy)
  · exact (fails_readCompactSize hn (by omega)).bind _

/-- What an element takes in a vector. -/
theorem length_write_le {v : List α} {x : α} (hx : x ∈ v) :
    (write x).length ≤ (writeVector write v).length := by
  have hsub : (write x).Sublist (v.flatMap write) :=
    List.sublist_flatten_of_mem (List.mem_map_of_mem hx)
  have hle := hsub.length_le
  rw [writeVector, List.length_append]
  omega

/-- Elements that take a byte or more take at least as many bytes as they are. -/
theorem length_le_flatMap (v : List α) (h : ∀ x, 0 < (write x).length) :
    v.length ≤ (v.flatMap write).length := by
  induction v with
  | nil => simp
  | cons x v ih =>
    have hx := h x
    rw [List.flatMap_cons, List.length_append, List.length_cons]
    omega

theorem length_le_writeVector {v : List α} (h : ∀ x, 0 < (write x).length) :
    v.length ≤ (writeVector write v).length := by
  have hflat := length_le_flatMap v h
  rw [writeVector, List.length_append]
  omega

end Vector

end Serialization

open Serialization

/-! ## Transactions -/

/-- `COutPoint::SerializationOp`, writing. -/
def COutPoint.serialize (o : COutPoint) : List UInt8 :=
  leBytes 32 o.hash.toNat ++ leBytes 4 o.n

/-- `COutPoint::SerializationOp`, reading. -/
def COutPoint.unserialize : Reader String COutPoint := do
  let hash ← readData 32
  let n ← readData 4
  pure ⟨BitVec.ofNat 256 hash, n⟩

/-- `CTxIn::SerializationOp`, writing. -/
def CTxIn.serialize (i : CTxIn) : List UInt8 :=
  i.prevout.serialize ++ (writeScript i.scriptSig ++ leBytes 4 i.nSequence.toNat)

/-- `CTxIn::SerializationOp`, reading. -/
def CTxIn.unserialize : Reader String CTxIn := do
  let prevout ← COutPoint.unserialize
  let scriptSig ← readScript
  let nSequence ← readData 4
  pure ⟨prevout, scriptSig, UInt32.ofNat nSequence⟩

/-- `CTxOut::SerializationOp`, writing; `nValue` is an `int64_t`. -/
def CTxOut.serialize (o : CTxOut) : List UInt8 :=
  leBytes 8 (o.nValue % 2 ^ 64).toNat ++ writeScript o.scriptPubKey

/-- `CTxOut::SerializationOp`, reading. -/
def CTxOut.unserialize : Reader String CTxOut := do
  let nValue ← readData 8
  let scriptPubKey ← readScript
  pure ⟨(nValue : ℤ).bmod (2 ^ 64), scriptPubKey⟩

namespace CTransaction

/-- `SerializeTransaction`. -/
def serialize (tx : CTransaction) : List UInt8 :=
  leBytes 4 tx.nVersion.toUInt32.toNat ++ (writeVector CTxIn.serialize tx.vin
    ++ (writeVector CTxOut.serialize tx.vout ++ leBytes 4 tx.nLockTime.toNat))

variable (Hash : List UInt8 → Uint256)

/-- `UpdateHash`; `Hash` is the double SHA-256 of `CHash256`. -/
def updateHash (tx : CTransaction) : CTransaction := { tx with hash := Hash tx.serialize }

/-- `CTransaction::Unserialize`. -/
def unserialize : Reader String CTransaction := do
  let nVersion ← readData 4
  let vin ← readVector CTxIn.unserialize
  let vout ← readVector CTxOut.unserialize
  let nLockTime ← readData 4
  pure (updateHash Hash
    ⟨0, (UInt32.ofNat nVersion).toInt32, vin, vout, UInt32.ofNat nLockTime⟩)

end CTransaction

/-! ### Reading a transaction back -/

/-- The members are in the range of their C++ types. -/
def CTransaction.Typed (tx : CTransaction) : Prop :=
  (∀ i ∈ tx.vin, i.prevout.n < 2 ^ 32) ∧
    ∀ o ∈ tx.vout, -2 ^ 63 ≤ o.nValue ∧ o.nValue < 2 ^ 63

/-- No length is above what reading accepts. -/
def CTransaction.Readable (tx : CTransaction) : Prop :=
  (tx.vin.length ≤ maxSize ∧ ∀ i ∈ tx.vin, i.scriptSig.length ≤ maxSize) ∧
    (tx.vout.length ≤ maxSize ∧ ∀ o ∈ tx.vout, o.scriptPubKey.length ≤ maxSize)

theorem COutPoint.reads_unserialize {o : COutPoint} (h : o.n < 2 ^ 32) :
    Reads COutPoint.unserialize o.serialize o := by
  have hhash : Reads (readData 32) (leBytes 32 o.hash.toNat) o.hash.toNat := by
    apply reads_readData
    have := o.hash.isLt
    omega
  have hn : Reads (readData 4) (leBytes 4 o.n) o.n := by
    apply reads_readData
    omega
  refine hhash.bind (hn.map ?_)
  rw [BitVec.ofNat_toNat, BitVec.setWidth_eq]

theorem reads_readData_uint32 (x : UInt32) : Reads (readData 4) (leBytes 4 x.toNat) x.toNat :=
  reads_readData (by have := x.toNat_lt; omega)

theorem CTxIn.reads_unserialize {i : CTxIn} (hn : i.prevout.n < 2 ^ 32)
    (h : i.scriptSig.length ≤ maxSize) : Reads CTxIn.unserialize i.serialize i := by
  refine (COutPoint.reads_unserialize hn).bind ((reads_readScript h).bind
    ((reads_readData_uint32 i.nSequence).map ?_))
  rw [UInt32.ofNat_toNat]

theorem CTxIn.fails_unserialize {i : CTxIn} (hn : i.prevout.n < 2 ^ 32)
    (hlen : i.scriptSig.length < 2 ^ 64) (h : ¬ i.scriptSig.length ≤ maxSize) :
    Fails CTxIn.unserialize i.serialize tooLarge :=
  (COutPoint.reads_unserialize hn).bind_fails
    ((fails_readScript hlen (by omega)).bind (leBytes 4 i.nSequence.toNat))

theorem CTxOut.reads_nValue {o : CTxOut} :
    Reads (readData 8) (leBytes 8 (o.nValue % 2 ^ 64).toNat) (o.nValue % 2 ^ 64).toNat := by
  apply reads_readData
  omega

theorem CTxOut.reads_unserialize {o : CTxOut} (hv : -2 ^ 63 ≤ o.nValue ∧ o.nValue < 2 ^ 63)
    (h : o.scriptPubKey.length ≤ maxSize) : Reads CTxOut.unserialize o.serialize o := by
  have hvalue : (((o.nValue % 2 ^ 64).toNat : ℤ).bmod (2 ^ 64)) = o.nValue := by
    rw [Int.bmod_def]
    omega
  refine CTxOut.reads_nValue.bind ((reads_readScript h).map ?_)
  rw [hvalue]

theorem CTxOut.fails_unserialize {o : CTxOut} (hlen : o.scriptPubKey.length < 2 ^ 64)
    (h : ¬ o.scriptPubKey.length ≤ maxSize) :
    Fails CTxOut.unserialize o.serialize tooLarge := by
  apply CTxOut.reads_nValue.bind_fails
  rw [← List.append_nil (writeScript o.scriptPubKey)]
  exact (fails_readScript hlen (by omega)).bind []

namespace CTransaction

variable (Hash : List UInt8 → Uint256) {tx : CTransaction}

theorem reads_vin (htyped : tx.Typed) (h : tx.vin.length ≤ maxSize ∧
    ∀ i ∈ tx.vin, i.scriptSig.length ≤ maxSize) :
    Reads (readVector CTxIn.unserialize) (writeVector CTxIn.serialize tx.vin) tx.vin := by
  have hread := reads_readVector (g := id) h.1 fun i hi =>
    CTxIn.reads_unserialize (htyped.1 i hi) (h.2 i hi)
  rwa [List.map_id] at hread

theorem reads_vout (htyped : tx.Typed) (h : tx.vout.length ≤ maxSize ∧
    ∀ o ∈ tx.vout, o.scriptPubKey.length ≤ maxSize) :
    Reads (readVector CTxOut.unserialize) (writeVector CTxOut.serialize tx.vout) tx.vout := by
  have hread := reads_readVector (g := id) h.1 fun o ho =>
    CTxOut.reads_unserialize (htyped.2 o ho) (h.2 o ho)
  rwa [List.map_id] at hread

theorem length_serialize_pos (tx : CTransaction) : 0 < tx.serialize.length := by
  simp only [serialize, List.length_append, length_leBytes]
  omega

/-- `GetSerializeSize` is the number of bytes that are written. -/
theorem length_serialize (tx : CTransaction) : tx.serialize.length = tx.serializeSize := by
  simp only [serialize, serializeSize, writeVector, List.length_append, length_leBytes,
    length_writeCompactSize, List.length_flatMap]
  simp only [CTxIn.serialize, CTxOut.serialize, COutPoint.serialize, writeScript,
    List.length_append, length_leBytes, length_writeCompactSize]
  simp only [add_assoc]

theorem reads_unserialize (htyped : tx.Typed) (h : tx.Readable) :
    Reads (unserialize Hash) tx.serialize (tx.updateHash Hash) := by
  refine (reads_readData_uint32 tx.nVersion.toUInt32).bind ((reads_vin htyped h.1).bind
    ((reads_vout htyped h.2).bind ((reads_readData_uint32 tx.nLockTime).map ?_)))
  rw [UInt32.ofNat_toNat, UInt32.ofNat_toNat, Int32.toInt32_toUInt32]
  rfl

/-- The number of elements of a vector, and of bytes of a script, is at most the size of
the transaction. -/
theorem length_le_serialize (tx : CTransaction) :
    tx.vin.length ≤ tx.serialize.length ∧ tx.vout.length ≤ tx.serialize.length ∧
      (∀ i ∈ tx.vin, i.scriptSig.length ≤ tx.serialize.length) ∧
      (∀ o ∈ tx.vout, o.scriptPubKey.length ≤ tx.serialize.length) := by
  have hin : ∀ i : CTxIn, i.scriptSig.length < i.serialize.length := by
    intro i
    simp only [CTxIn.serialize, COutPoint.serialize, writeScript, List.length_append,
      length_leBytes]
    omega
  have hout : ∀ o : CTxOut, o.scriptPubKey.length < o.serialize.length := by
    intro o
    simp only [CTxOut.serialize, writeScript, List.length_append, length_leBytes]
    omega
  have hvin := length_le_writeVector (v := tx.vin) fun i => Nat.zero_lt_of_lt (hin i)
  have hvout := length_le_writeVector (v := tx.vout) fun o => Nat.zero_lt_of_lt (hout o)
  simp only [serialize, List.length_append]
  refine ⟨by omega, by omega, fun i hi => ?_, fun o ho => ?_⟩
  · have hle : i.serialize.length ≤ (writeVector CTxIn.serialize tx.vin).length :=
      length_write_le hi
    have hlt := hin i
    omega
  · have hle : o.serialize.length ≤ (writeVector CTxOut.serialize tx.vout).length :=
      length_write_le ho
    have hlt := hout o
    omega

theorem fails_unserialize (htyped : tx.Typed) (hsize : tx.serialize.length < 2 ^ 64)
    (h : ¬ tx.Readable) : Fails (unserialize Hash) tx.serialize tooLarge := by
  obtain ⟨hvin, hvout, hins, houts⟩ := length_le_serialize tx
  apply (reads_readData_uint32 tx.nVersion.toUInt32).bind_fails
  by_cases hv : tx.vin.length ≤ maxSize ∧ ∀ i ∈ tx.vin, i.scriptSig.length ≤ maxSize
  · apply (reads_vin htyped hv).bind_fails
    have hfail : Fails (readVector CTxOut.unserialize) (writeVector CTxOut.serialize tx.vout)
        tooLarge := by
      refine fails_readVector (g := id) (lt_of_le_of_lt hvout hsize)
        (fun o ho h => CTxOut.reads_unserialize (htyped.2 o ho) h)
        (fun o ho h => CTxOut.fails_unserialize (lt_of_le_of_lt (houts o ho) hsize) h) ?_
      exact fun hc => h ⟨hv, hc⟩
    exact hfail.bind _
  · have hfail : Fails (readVector CTxIn.unserialize) (writeVector CTxIn.serialize tx.vin)
        tooLarge :=
      fails_readVector (g := id) (lt_of_le_of_lt hvin hsize)
        (fun i hi h => CTxIn.reads_unserialize (htyped.1 i hi) h)
        (fun i hi h => CTxIn.fails_unserialize (htyped.1 i hi)
          (lt_of_le_of_lt (hins i hi) hsize) h) hv
    exact hfail.bind _

end CTransaction

/-! ## Blocks -/

/-- `CBlockHeader`. -/
structure CBlockHeader where
  nVersion : Int32
  hashPrevBlock : Uint256
  hashMerkleRoot : Uint256
  nTime : UInt32
  nBits : UInt32
  nNonce : UInt32
  deriving DecidableEq

/-- `CBlock`, without its memory-only member `fChecked`. -/
structure CBlock where
  header : CBlockHeader
  vtx : List CTransaction
  deriving DecidableEq

/-- `CBlockHeader::SerializationOp`, writing. -/
def CBlockHeader.serialize (h : CBlockHeader) : List UInt8 :=
  leBytes 4 h.nVersion.toUInt32.toNat ++ (leBytes 32 h.hashPrevBlock.toNat
    ++ (leBytes 32 h.hashMerkleRoot.toNat ++ (leBytes 4 h.nTime.toNat
      ++ (leBytes 4 h.nBits.toNat ++ leBytes 4 h.nNonce.toNat))))

/-- `CBlockHeader::SerializationOp`, reading. -/
def CBlockHeader.unserialize : Reader String CBlockHeader := do
  let nVersion ← readData 4
  let hashPrevBlock ← readData 32
  let hashMerkleRoot ← readData 32
  let nTime ← readData 4
  let nBits ← readData 4
  let nNonce ← readData 4
  pure ⟨(UInt32.ofNat nVersion).toInt32, BitVec.ofNat 256 hashPrevBlock,
    BitVec.ofNat 256 hashMerkleRoot, UInt32.ofNat nTime, UInt32.ofNat nBits,
    UInt32.ofNat nNonce⟩

@[simp] theorem CBlockHeader.length_serialize (h : CBlockHeader) : h.serialize.length = 80 := by
  simp [serialize]

theorem CBlockHeader.reads_unserialize (h : CBlockHeader) :
    Reads CBlockHeader.unserialize h.serialize h := by
  have hhash : ∀ x : Uint256, Reads (readData 32) (leBytes 32 x.toNat) x.toNat := by
    intro x
    apply reads_readData
    have := x.isLt
    omega
  refine (reads_readData_uint32 _).bind ((hhash _).bind ((hhash _).bind
    ((reads_readData_uint32 _).bind ((reads_readData_uint32 _).bind
      ((reads_readData_uint32 _).map ?_)))))
  simp only [UInt32.ofNat_toNat, Int32.toInt32_toUInt32, BitVec.ofNat_toNat, BitVec.setWidth_eq]

namespace CBlock

/-- `CBlock::SerializationOp`, writing. -/
def serialize (b : CBlock) : List UInt8 :=
  b.header.serialize ++ writeVector CTransaction.serialize b.vtx

variable (Hash : List UInt8 → Uint256)

/-- `CBlock::SerializationOp`, reading. -/
def unserialize : Reader String CBlock := do
  let header ← CBlockHeader.unserialize
  let vtx ← readVector (CTransaction.unserialize Hash)
  pure ⟨header, vtx⟩

/-- The block with the hashes of its transactions computed from their contents. -/
def updateHashes (b : CBlock) : CBlock :=
  { b with vtx := b.vtx.map (CTransaction.updateHash Hash) }

/-- Every transaction carries the hash of its contents. -/
def Hashed (b : CBlock) : Prop := ∀ tx ∈ b.vtx, tx.hash = Hash tx.serialize

theorem updateHashes_of_hashed {b : CBlock} (h : b.Hashed Hash) : b.updateHashes Hash = b := by
  have hmap : b.vtx.map (CTransaction.updateHash Hash) = b.vtx := by
    conv_rhs => rw [← List.map_id b.vtx]
    apply List.map_congr_left
    intro tx htx
    rw [CTransaction.updateHash, ← h tx htx, id]
  rw [updateHashes, hmap]

/-- The members are in the range of their C++ types. -/
def Typed (b : CBlock) : Prop := ∀ tx ∈ b.vtx, tx.Typed

/-- No length is above what reading accepts. -/
def Readable (b : CBlock) : Prop := b.vtx.length ≤ maxSize ∧ ∀ tx ∈ b.vtx, tx.Readable

variable {b : CBlock}

/-- **Reading a block back.** -/
theorem reads_unserialize (htyped : b.Typed) (h : b.Readable) :
    Reads (unserialize Hash) b.serialize (b.updateHashes Hash) := by
  refine (CBlockHeader.reads_unserialize b.header).bind ?_
  have hvtx : Reads (readVector (CTransaction.unserialize Hash))
      (writeVector CTransaction.serialize b.vtx) (b.vtx.map (CTransaction.updateHash Hash)) :=
    reads_readVector h.1 fun tx htx =>
      CTransaction.reads_unserialize Hash (htyped tx htx) (h.2 tx htx)
  exact hvtx.map rfl

/-- **A block with a length above `MAX_SIZE` is refused.** -/
theorem fails_unserialize (htyped : b.Typed) (hsize : b.serialize.length < 2 ^ 64)
    (h : ¬ b.Readable) : Fails (unserialize Hash) b.serialize tooLarge := by
  have hvector : (writeVector CTransaction.serialize b.vtx).length < 2 ^ 64 := by
    rw [serialize, List.length_append] at hsize
    omega
  apply (CBlockHeader.reads_unserialize b.header).bind_fails
  have hfail : Fails (readVector (CTransaction.unserialize Hash))
      (writeVector CTransaction.serialize b.vtx) tooLarge := by
    refine fails_readVector (lt_of_le_of_lt (length_le_writeVector CTransaction.length_serialize_pos) hvector)
      (fun tx htx hr => CTransaction.reads_unserialize Hash (htyped tx htx) hr)
      (fun tx htx hr => CTransaction.fails_unserialize Hash (htyped tx htx) ?_ hr) h
    exact lt_of_le_of_lt (length_write_le htx) hvector
  rw [← List.append_nil (writeVector CTransaction.serialize b.vtx)]
  exact hfail.bind []

end CBlock

/-! ## What reading accepts

Reading accepts canonical lengths only, so that what it accepts is what is written. -/

theorem Serialization.readBytes_eq_ok {n : ℕ} {s rest bytes : List UInt8}
    (h : readBytes n s = .ok (bytes, rest)) : bytes.length = n ∧ s = bytes ++ rest := by
  rw [readBytes] at h
  split at h
  · cases h
  · obtain ⟨rfl, rfl⟩ := Prod.mk.inj (Except.ok.inj h)
    exact ⟨by rw [List.length_take]; omega, (List.take_append_drop n s).symm⟩

namespace Serialization

theorem accepts_readData (k : ℕ) : Accepts (readData k) (leBytes k) (· < 256 ^ k) := by
  intro s n rest h
  obtain ⟨bytes, t, hb, h⟩ := bind_eq_ok h
  obtain ⟨rfl, rfl⟩ := pure_eq_ok h
  obtain ⟨rfl, rfl⟩ := readBytes_eq_ok hb
  exact ⟨leNat_lt bytes, by rw [leBytes_leNat]⟩

theorem accepts_readCanonical (k least : ℕ) :
    Accepts (readCanonical k least) (leBytes k) fun n => least ≤ n ∧ n < 256 ^ k := by
  intro s n rest h
  obtain ⟨m, t, hm, hif⟩ := bind_eq_ok h
  obtain ⟨hmax, rfl⟩ := accepts_readData k s m t hm
  by_cases hlt : m < least
  · rw [if_pos hlt] at hif
    cases hif
  · rw [if_neg hlt] at hif
    obtain ⟨rfl, rfl⟩ := pure_eq_ok hif
    exact ⟨⟨Nat.not_lt.mp hlt, hmax⟩, rfl⟩

/-- The form that is accepted is the shortest one. -/
theorem accepts_readCompactNumber :
    Accepts readCompactNumber writeCompactSize (· < 2 ^ 64) := by
  intro s n rest h
  obtain ⟨c, u, hc, hif⟩ := bind_eq_ok h
  obtain ⟨hc256, rfl⟩ := accepts_readData 1 s c u hc
  unfold writeCompactSize
  by_cases h₁ : c < 253
  · rw [if_pos h₁] at hif
    obtain ⟨rfl, rfl⟩ := pure_eq_ok hif
    exact ⟨by omega, by rw [if_pos h₁]⟩
  rw [if_neg h₁] at hif
  by_cases h₂ : c = 253
  · rw [if_pos h₂] at hif
    obtain ⟨⟨hlow, hhigh⟩, rfl⟩ := accepts_readCanonical 2 253 u n rest hif
    exact ⟨by omega, by rw [if_neg (by omega), if_pos (by omega), h₂, List.append_assoc]⟩
  rw [if_neg h₂] at hif
  by_cases h₃ : c = 254
  · rw [if_pos h₃] at hif
    obtain ⟨⟨hlow, hhigh⟩, rfl⟩ := accepts_readCanonical 4 0x10000 u n rest hif
    exact ⟨by omega, by
      rw [if_neg (by omega), if_neg (by omega), if_pos (by omega), h₃, List.append_assoc]⟩
  · rw [if_neg h₃] at hif
    obtain ⟨⟨hlow, hhigh⟩, rfl⟩ := accepts_readCanonical 8 0x100000000 u n rest hif
    obtain rfl : c = 255 := by omega
    exact ⟨by omega, by
      rw [if_neg (by omega), if_neg (by omega), if_neg (by omega), List.append_assoc]⟩

theorem accepts_readCompactSize : Accepts readCompactSize writeCompactSize (· ≤ maxSize) := by
  intro s n rest h
  obtain ⟨m, t, hm, hif⟩ := bind_eq_ok h
  obtain ⟨-, rfl⟩ := accepts_readCompactNumber s m t hm
  by_cases hlt : m > maxSize
  · rw [if_pos hlt] at hif
    cases hif
  · rw [if_neg hlt] at hif
    obtain ⟨rfl, rfl⟩ := pure_eq_ok hif
    exact ⟨Nat.not_lt.mp hlt, rfl⟩

theorem accepts_readScript :
    Accepts readScript writeScript fun script => script.length ≤ maxSize := by
  intro s script rest h
  obtain ⟨n, t, hn, hread⟩ := bind_eq_ok h
  obtain ⟨hle, rfl⟩ := accepts_readCompactSize s n t hn
  obtain ⟨rfl, rfl⟩ := readBytes_eq_ok hread
  exact ⟨hle, by rw [writeScript, List.append_assoc]⟩

theorem accepts_readVector {α : Type} {read : Reader String α} {write : α → List UInt8}
    {P : α → Prop} (hread : Accepts read write P) :
    Accepts (readVector read) (writeVector write) fun v => v.length ≤ maxSize ∧ ∀ x ∈ v, P x := by
  intro s v rest h
  obtain ⟨n, t, hn, hmany⟩ := bind_eq_ok h
  obtain ⟨hle, rfl⟩ := accepts_readCompactSize s n t hn
  obtain ⟨rfl, hP, rfl⟩ := hread.many n t rest v hmany
  exact ⟨⟨hle, hP⟩, by rw [writeVector, List.append_assoc]⟩

end Serialization

theorem COutPoint.accepts_unserialize :
    Accepts COutPoint.unserialize COutPoint.serialize fun o => o.n < 2 ^ 32 := by
  intro s o rest h
  obtain ⟨hash, t, hhash, h₁⟩ := bind_eq_ok h
  obtain ⟨n, u, hn, h₂⟩ := bind_eq_ok h₁
  obtain ⟨rfl, rfl⟩ := pure_eq_ok h₂
  obtain ⟨hlt, rfl⟩ := accepts_readData 32 s hash t hhash
  obtain ⟨hlt', rfl⟩ := accepts_readData 4 t n _ hn
  refine ⟨hlt', ?_⟩
  rw [COutPoint.serialize, BitVec.toNat_ofNat, Nat.mod_eq_of_lt (by omega), List.append_assoc]

theorem CTxIn.accepts_unserialize : Accepts CTxIn.unserialize CTxIn.serialize fun i =>
    i.prevout.n < 2 ^ 32 ∧ i.scriptSig.length ≤ maxSize := by
  intro s i rest h
  obtain ⟨prevout, t, hprevout, h₁⟩ := bind_eq_ok h
  obtain ⟨scriptSig, u, hscript, h₂⟩ := bind_eq_ok h₁
  obtain ⟨nSequence, v, hseq, h₃⟩ := bind_eq_ok h₂
  obtain ⟨rfl, rfl⟩ := pure_eq_ok h₃
  obtain ⟨hn, rfl⟩ := COutPoint.accepts_unserialize s prevout t hprevout
  obtain ⟨hlen, rfl⟩ := accepts_readScript t scriptSig u hscript
  obtain ⟨hlt, rfl⟩ := accepts_readData 4 u nSequence _ hseq
  refine ⟨⟨hn, hlen⟩, ?_⟩
  rw [CTxIn.serialize]
  simp only [UInt32.toNat_ofNat_of_lt' hlt, List.append_assoc]

theorem CTxOut.accepts_unserialize : Accepts CTxOut.unserialize CTxOut.serialize fun o =>
    (-2 ^ 63 ≤ o.nValue ∧ o.nValue < 2 ^ 63) ∧ o.scriptPubKey.length ≤ maxSize := by
  intro s o rest h
  obtain ⟨nValue, t, hvalue, h₁⟩ := bind_eq_ok h
  obtain ⟨scriptPubKey, u, hscript, h₂⟩ := bind_eq_ok h₁
  obtain ⟨rfl, rfl⟩ := pure_eq_ok h₂
  obtain ⟨hlt, rfl⟩ := accepts_readData 8 s nValue t hvalue
  obtain ⟨hlen, rfl⟩ := accepts_readScript t scriptPubKey _ hscript
  have hback : ((nValue : ℤ).bmod (2 ^ 64) % 2 ^ 64).toNat = nValue := by
    rw [Int.bmod_def]
    omega
  refine ⟨⟨?_, hlen⟩, ?_⟩
  · dsimp only
    rw [Int.bmod_def]
    omega
  · rw [CTxOut.serialize, hback, List.append_assoc]

section

variable (Hash : List UInt8 → Uint256)

theorem CTransaction.serialize_updateHash (tx : CTransaction) :
    (tx.updateHash Hash).serialize = tx.serialize := rfl

theorem CTransaction.accepts_unserialize :
    Accepts (CTransaction.unserialize Hash) CTransaction.serialize fun tx =>
      tx.Typed ∧ tx.Readable := by
  intro s tx rest h
  obtain ⟨nVersion, t, hversion, h₁⟩ := bind_eq_ok h
  obtain ⟨vin, u, hvin, h₂⟩ := bind_eq_ok h₁
  obtain ⟨vout, v, hvout, h₃⟩ := bind_eq_ok h₂
  obtain ⟨nLockTime, w, hlock, h₄⟩ := bind_eq_ok h₃
  obtain ⟨rfl, rfl⟩ := pure_eq_ok h₄
  obtain ⟨hv, rfl⟩ := accepts_readData 4 s nVersion t hversion
  obtain ⟨⟨hinlen, hin⟩, rfl⟩ := accepts_readVector CTxIn.accepts_unserialize t vin u hvin
  obtain ⟨⟨houtlen, hout⟩, rfl⟩ := accepts_readVector CTxOut.accepts_unserialize u vout v hvout
  obtain ⟨hl, rfl⟩ := accepts_readData 4 v nLockTime _ hlock
  refine ⟨⟨⟨fun i hi => (hin i hi).1, fun o ho => (hout o ho).1⟩,
    ⟨hinlen, fun i hi => (hin i hi).2⟩, houtlen, fun o ho => (hout o ho).2⟩, ?_⟩
  rw [CTransaction.serialize_updateHash, CTransaction.serialize]
  simp only [UInt32.toUInt32_toInt32, UInt32.toNat_ofNat_of_lt' hv, UInt32.toNat_ofNat_of_lt' hl,
    List.append_assoc]

theorem CBlockHeader.accepts_unserialize :
    Accepts CBlockHeader.unserialize CBlockHeader.serialize fun _ => True := by
  intro s header rest h
  obtain ⟨nVersion, t₁, hversion, h₁⟩ := bind_eq_ok h
  obtain ⟨hashPrevBlock, t₂, hprev, h₂⟩ := bind_eq_ok h₁
  obtain ⟨hashMerkleRoot, t₃, hroot, h₃⟩ := bind_eq_ok h₂
  obtain ⟨nTime, t₄, htime, h₄⟩ := bind_eq_ok h₃
  obtain ⟨nBits, t₅, hbits, h₅⟩ := bind_eq_ok h₄
  obtain ⟨nNonce, t₆, hnonce, h₆⟩ := bind_eq_ok h₅
  obtain ⟨rfl, rfl⟩ := pure_eq_ok h₆
  obtain ⟨hv, rfl⟩ := accepts_readData 4 s nVersion t₁ hversion
  obtain ⟨hp, rfl⟩ := accepts_readData 32 t₁ hashPrevBlock t₂ hprev
  obtain ⟨hr, rfl⟩ := accepts_readData 32 t₂ hashMerkleRoot t₃ hroot
  obtain ⟨ht, rfl⟩ := accepts_readData 4 t₃ nTime t₄ htime
  obtain ⟨hb, rfl⟩ := accepts_readData 4 t₄ nBits t₅ hbits
  obtain ⟨hn, rfl⟩ := accepts_readData 4 t₅ nNonce _ hnonce
  refine ⟨trivial, ?_⟩
  rw [CBlockHeader.serialize]
  simp only [UInt32.toUInt32_toInt32, UInt32.toNat_ofNat_of_lt' hv, UInt32.toNat_ofNat_of_lt' ht,
    UInt32.toNat_ofNat_of_lt' hb, UInt32.toNat_ofNat_of_lt' hn, BitVec.toNat_ofNat,
    Nat.mod_eq_of_lt (show hashPrevBlock < 2 ^ 256 by omega),
    Nat.mod_eq_of_lt (show hashMerkleRoot < 2 ^ 256 by omega), List.append_assoc]

/-- **A block that is accepted** is written as what was read. -/
theorem CBlock.accepts_unserialize :
    Accepts (CBlock.unserialize Hash) CBlock.serialize fun b => b.Typed ∧ b.Readable := by
  intro s b rest h
  obtain ⟨header, t, hheader, h₁⟩ := bind_eq_ok h
  obtain ⟨vtx, u, hvtx, h₂⟩ := bind_eq_ok h₁
  obtain ⟨rfl, rfl⟩ := pure_eq_ok h₂
  obtain ⟨⟨hlen, htx⟩, rfl⟩ := accepts_readVector (CTransaction.accepts_unserialize Hash) t vtx _ hvtx
  obtain ⟨-, rfl⟩ := CBlockHeader.accepts_unserialize s header _ hheader
  exact ⟨⟨fun tx hx => (htx tx hx).1, hlen, fun tx hx => (htx tx hx).2⟩, by
    rw [CBlock.serialize, List.append_assoc]⟩

end
