/-
# Transactions

The transaction types of `libs/server/primitives/transaction.h` and the checks of
`Validation::checkTransaction` (`libs/server/validation/TxValidation.cpp`) that need no
context.  The hash of a transaction is the member that `UpdateHash` fills in; nothing is
assumed about how it depends on the other members.
-/
import Mathlib.Algebra.BigOperators.Group.List.Basic
import Mathlib.Algebra.Order.Ring.Int
import Mathlib.Data.List.Nodup
import Mathlib.Tactic.Common

/-- `uint256`. -/
abbrev Uint256 := BitVec 256

instance Uint256.lawfulBEq : LawfulBEq Uint256 := inferInstance

/-- `COutPoint`: output `n` of the transaction `hash`. -/
structure COutPoint where
  hash : Uint256
  n : ℕ
  deriving DecidableEq

/-- `COutPoint::IsNull`. -/
def COutPoint.isNull (o : COutPoint) : Bool := o.hash == 0 && o.n == 0xFFFFFFFF

/-- `CTxIn`. -/
structure CTxIn where
  prevout : COutPoint
  scriptSig : List UInt8
  nSequence : UInt32
  deriving DecidableEq

/-- `CTxOut`. -/
structure CTxOut where
  nValue : ℤ
  scriptPubKey : List UInt8
  deriving DecidableEq

namespace CTxOut

/-- What `SetNull` and the default constructor leave. -/
def null : CTxOut := ⟨-1, []⟩

/-- `CTxOut::IsNull`. -/
def isNull (o : CTxOut) : Bool := o.nValue == -1

/-- `CScript::IsUnspendable` of the script: it starts with `OP_RETURN`. -/
def isUnspendable (o : CTxOut) : Bool := o.scriptPubKey.head? == some 0x6a

@[simp] theorem isNull_null : null.isNull = true := rfl

end CTxOut

/-- `CTransaction`. -/
structure CTransaction where
  hash : Uint256
  nVersion : Int32
  vin : List CTxIn
  vout : List CTxOut
  nLockTime : UInt32
  deriving DecidableEq

namespace CTransaction

/-- `CTransaction::IsCoinBase`. -/
def isCoinBase (tx : CTransaction) : Bool :=
  match tx.vin with
  | [txin] => txin.prevout.isNull
  | _ => false

/-- The outputs that the transaction spends, input by input. -/
def prevouts (tx : CTransaction) : List COutPoint := tx.vin.map CTxIn.prevout

/-- `GetSizeOfCompactSize`. -/
def sizeOfCompactSize (n : ℕ) : ℕ :=
  if n < 253 then 1 else if n ≤ 0xFFFF then 3 else if n ≤ 0xFFFFFFFF then 5 else 9

/-- `GetSerializeSize` of a transaction. -/
def serializeSize (tx : CTransaction) : ℕ :=
  let ins := tx.vin.map fun i => 32 + 4 + sizeOfCompactSize i.scriptSig.length
    + i.scriptSig.length + 4
  let outs := tx.vout.map fun o => 8 + sizeOfCompactSize o.scriptPubKey.length
    + o.scriptPubKey.length
  4 + sizeOfCompactSize tx.vin.length + ins.sum + sizeOfCompactSize tx.vout.length + outs.sum + 4

end CTransaction

namespace Validation

/-- `Validation::Exception`: the reason and the punishment. -/
structure Exception where
  reason : String
  punishment : ℕ
  deriving DecidableEq

def maxTxSize : ℕ := 1000000

def maxMoney : ℤ := 21000000 * 100000000

/-- The loop over the outputs, with the sum so far. -/
def checkOutputs : List CTxOut → ℤ → Except Exception Unit
  | [], _ => .ok ()
  | txout :: rest, nValueOut =>
      if txout.nValue < 0 then .error ⟨"bad-txns-vout-negative", 100⟩
      else if txout.nValue > maxMoney then .error ⟨"bad-txns-vout-toolarge", 100⟩
      else
        let nValueOut := nValueOut + txout.nValue
        if ¬ (0 ≤ nValueOut ∧ nValueOut ≤ maxMoney) then
          .error ⟨"bad-txns-txouttotal-toolarge", 100⟩
        else checkOutputs rest nValueOut

/-- The loop that looks for an outpoint twice, with the outpoints so far. -/
def checkDuplicateInputs : List CTxIn → List COutPoint → Except Exception Unit
  | [], _ => .ok ()
  | txin :: rest, seen =>
      if txin.prevout ∈ seen then .error ⟨"bad-txns-inputs-duplicate", 100⟩
      else checkDuplicateInputs rest (txin.prevout :: seen)

/-- `Validation::checkTransaction`. -/
def checkTransaction (tx : CTransaction) : Except Exception Unit := do
  if tx.vin = [] then throw ⟨"bad-txns-vin-empty", 10⟩
  if tx.vout = [] then throw ⟨"bad-txns-vout-empty", 10⟩
  if tx.serializeSize > maxTxSize then throw ⟨"bad-txns-oversize", 100⟩
  checkOutputs tx.vout 0
  checkDuplicateInputs tx.vin []
  if tx.isCoinBase then
    let size := (tx.vin.map (·.scriptSig.length)).headD 0
    if size < 2 ∨ size > 100 then throw ⟨"bad-cb-length", 100⟩
  else if tx.vin.any (·.prevout.isNull) then
    throw ⟨"bad-txns-prevout-null", 10⟩

theorem nonneg_of_checkOutputs : ∀ {l : List CTxOut} {v : ℤ}, checkOutputs l v = .ok () →
    ∀ o ∈ l, 0 ≤ o.nValue := by
  intro l
  induction l with
  | nil =>
    intro v _ o ho
    cases ho
  | cons txout rest ih =>
    intro v h o ho
    rw [checkOutputs] at h
    by_cases hneg : txout.nValue < 0
    · rw [if_pos hneg] at h
      cases h
    · rw [if_neg hneg] at h
      by_cases hbig : txout.nValue > maxMoney
      · rw [if_pos hbig] at h
        cases h
      · rw [if_neg hbig] at h
        simp only at h
        split at h
        · cases h
        · rcases List.mem_cons.mp ho with rfl | ho
          · omega
          · exact ih h o ho

theorem nodup_of_checkDuplicateInputs : ∀ {l : List CTxIn} {seen : List COutPoint},
    checkDuplicateInputs l seen = .ok () →
    (l.map CTxIn.prevout).Nodup ∧ ∀ o ∈ l.map CTxIn.prevout, o ∉ seen := by
  intro l
  induction l with
  | nil =>
    intro seen _
    simp
  | cons txin rest ih =>
    intro seen h
    rw [checkDuplicateInputs] at h
    by_cases hmem : txin.prevout ∈ seen
    · rw [if_pos hmem] at h
      cases h
    · rw [if_neg hmem] at h
      obtain ⟨hnodup, hnew⟩ := ih h
      rw [List.map_cons]
      constructor
      · exact List.nodup_cons.mpr ⟨fun hin => hnew _ hin (by simp), hnodup⟩
      · intro o ho
        rcases List.mem_cons.mp ho with rfl | ho
        · exact hmem
        · exact fun hin => hnew o ho (by simp [hin])

/-- The loops over a transaction that passes. -/
theorem loops_of_checkTransaction {tx : CTransaction} (h : checkTransaction tx = .ok ()) :
    checkOutputs tx.vout 0 = .ok () ∧ checkDuplicateInputs tx.vin [] = .ok () := by
  unfold checkTransaction at h
  simp only [bind, Except.bind, pure, Except.pure, throw, throwThe, MonadExceptOf.throw] at h
  cases hout : checkOutputs tx.vout 0 with
  | error e =>
    simp only [hout] at h
    split_ifs at h
  | ok u =>
    cases hin : checkDuplicateInputs tx.vin [] with
    | error e =>
      simp only [hout, hin] at h
      split_ifs at h
    | ok u => exact ⟨rfl, rfl⟩

/-- **What a transaction that passes has**: no negative output value, and no outpoint
spent twice. -/
theorem of_checkTransaction {tx : CTransaction} (h : checkTransaction tx = .ok ()) :
    (∀ o ∈ tx.vout, 0 ≤ o.nValue) ∧ tx.prevouts.Nodup := by
  obtain ⟨hout, hin⟩ := loops_of_checkTransaction h
  exact ⟨nonneg_of_checkOutputs hout, (nodup_of_checkDuplicateInputs hin).1⟩

end Validation
