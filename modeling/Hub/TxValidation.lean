/-
# Checking a transaction for the memory pool

`TxValidationState::checkTransaction` (`libs/server/validation/TxValidation.cpp`) checks a
transaction against the pool and its coins, fills in the entry, and gives it to `insertTx`.
The coins are read through `CCoinsViewMemPool`, which adds the outputs of the pool to the
coins below.  Reading fills the caches below and changes no value, so the checks are
functions of the pool.

Standardness, finality, sequence locks, signature operations, scripts, and the limits for
fees and for chains of transactions are left out: they only refuse more.
-/
import Hub.MemPoolRuns

namespace Validation

/-- `MoneyRange`. -/
def moneyRange (nValue : ℤ) : Bool := decide (0 ≤ nValue ∧ nValue ≤ maxMoney)

/-- The value of output `n` of the coins. -/
def valueOf (prevout : COutPoint) (coin : CCoins) : ℤ :=
  (coin.vout[prevout.n]?.getD CTxOut.null).nValue

/-- The second loop of `validateTransactionInputs`: whether the transaction spends a
coinbase. -/
def checkCoins (blockHeight : ℤ) : List (COutPoint × CCoins) → Except Exception Bool
  | [] => .ok false
  | (prevout, coin) :: rest =>
      if coin.fCoinBase ∧ blockHeight - coin.nHeight.toInt < CTxMemPool.coinbaseMaturity then
        .error ⟨"bad-txns-premature-spend-of-coinbase", 100⟩
      else if !moneyRange (valueOf prevout coin) then
        .error ⟨"bad-txns-inputvalues-outofrange", 100⟩
      else do
        let spendsCoinbase ← checkCoins blockHeight rest
        return coin.fCoinBase || spendsCoinbase

/-- `validateTransactionInputs`: the fee, and whether the transaction spends a coinbase. -/
def validateTransactionInputs (tx : CTransaction) (coins : List CCoins) (blockHeight : ℤ) :
    Except Exception (ℤ × Bool) :=
  let valueIn := ((tx.prevouts.zip coins).map fun pc => valueOf pc.1 pc.2).sum
  let valueOut := (tx.vout.map CTxOut.nValue).sum
  let fees := valueIn - valueOut
  if valueIn < valueOut then .error ⟨"bad-txns-in-belowout", 100⟩
  else if !moneyRange valueIn then .error ⟨"bad-txns-inputvalues-outofrange", 100⟩
  else if fees < 0 then .error ⟨"bad-txns-fee-negative", 100⟩
  else if !moneyRange fees then .error ⟨"bad-txns-fee-outofrange", 100⟩
  else do
    let spendsCoinbase ← checkCoins blockHeight (tx.prevouts.zip coins)
    return (fees, spendsCoinbase)

end Validation

/-- `MEMPOOL_HEIGHT`. -/
def mempoolHeight : Int32 := 0x7FFFFFFF

namespace CCoinsViewMemPool

/-- `CCoinsViewMemPool::GetCoins`. -/
def getCoins (s : CTxMemPool) (txid : Uint256) : Option CCoins :=
  match s.txAt txid with
  | some tx => some (CCoins.fromTx tx mempoolHeight)
  | none => s.coins.value txid

/-- `CCoinsViewCache::HaveCoins`, of a new cache over this view. -/
def haveCoins (s : CTxMemPool) (txid : Uint256) : Bool :=
  (getCoins s txid).any fun coins => !coins.vout.isEmpty

/-- `CCoinsViewCache::HaveInputs`, of a new cache over this view. -/
def haveInputs (s : CTxMemPool) (tx : CTransaction) : Bool :=
  tx.isCoinBase || tx.prevouts.all fun prevout =>
    (getCoins s prevout.hash).any fun coins => coins.isAvailable prevout.n

end CCoinsViewMemPool

namespace TxValidationState

open CCoinsViewMemPool

/-- `TxValidationState::checkTransaction`, up to the entry that it gives to `insertTx`. -/
def checkTransaction (s : CTxMemPool) (tx : CTransaction) (nTime : ℤ) (nUsageSize : ℕ)
    (blockHeight : ℤ) : Except Validation.Exception CTxMemPoolEntry := do
  Validation.checkTransaction tx
  if tx.isCoinBase then throw ⟨"coinbase", 100⟩
  if haveCoins s tx.hash then throw ⟨"txn-already-known", 0⟩
  if tx.prevouts.any fun prevout => !haveCoins s prevout.hash then
    throw ⟨"missing-inputs", 0⟩
  if !haveInputs s tx then throw ⟨"bad-txns-inputs-spent", 0⟩
  let coins := tx.prevouts.filterMap fun prevout => getCoins s prevout.hash
  let (nFee, spendsCoinbase) ← Validation.validateTransactionInputs tx coins blockHeight
  return .ofTx tx nTime nUsageSize nFee spendsCoinbase

/-- **What an entry that is given to `insertTx` has.** -/
theorem of_checkTransaction {s : CTxMemPool} {tx : CTransaction} {nTime : ℤ} {nUsageSize : ℕ}
    {blockHeight : ℤ} {entry : CTxMemPoolEntry}
    (h : checkTransaction s tx nTime nUsageSize blockHeight = .ok entry) :
    Validation.checkTransaction tx = .ok () ∧ tx.isCoinBase = false ∧
      haveCoins s tx.hash = false ∧ haveInputs s tx = true ∧
      ∃ nFee spendsCoinbase, entry = .ofTx tx nTime nUsageSize nFee spendsCoinbase := by
  unfold checkTransaction at h
  simp only [bind, Except.bind, pure, Except.pure, throw, throwThe, MonadExceptOf.throw] at h
  cases hcheck : Validation.checkTransaction tx with
  | error e =>
    rw [hcheck] at h
    cases h
  | ok u =>
    simp only [hcheck] at h
    cases hinputs : Validation.validateTransactionInputs tx
        (tx.prevouts.filterMap fun prevout => getCoins s prevout.hash) blockHeight with
    | error e =>
      rw [hinputs] at h
      split_ifs at h
    | ok r =>
      rw [hinputs] at h
      split_ifs at h with hcoinbase hknown hmissing hspent
      refine ⟨rfl, by simpa using hcoinbase, by simpa using hknown, by simpa using hspent,
        r.1, r.2, ?_⟩
      exact (Except.ok.inj h).symm

end TxValidationState
