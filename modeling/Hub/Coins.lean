/-
# Coins

`CCoins` (`libs/server/coins.h`): the unspent outputs of one transaction.  A spent output
is a null output, and null outputs at the end of `vout` are dropped.  `Clean` says that
they are dropped, `Canonical` that the null outputs that remain are the ones that
`SetNull` leaves.

Absent coins and coins with no unspent output mean the same; `norm` identifies them.
-/
import Hub.Transaction
import Mathlib.Data.List.DropRight

/-- `CCoins`. -/
structure CCoins where
  fCoinBase : Bool
  vout : List CTxOut
  nHeight : Int32
  nVersion : Int32
  deriving DecidableEq

namespace CCoins

/-- The empty constructor, and what `Clear` leaves. -/
def empty : CCoins := ⟨false, [], 0, 0⟩

/-- `CCoins::Cleanup`: drop the spent outputs at the end. -/
def cleanup (c : CCoins) : CCoins := { c with vout := c.vout.rdropWhile CTxOut.isNull }

/-- `CCoins::ClearUnspendable`. -/
def clearUnspendable (c : CCoins) : CCoins :=
  cleanup { c with vout := c.vout.map fun o => if o.isUnspendable then CTxOut.null else o }

/-- `CCoins::FromTx`. -/
def fromTx (tx : CTransaction) (nHeight : Int32) : CCoins :=
  clearUnspendable ⟨tx.isCoinBase, tx.vout, nHeight, tx.nVersion⟩

/-- `CCoins::IsAvailable`. -/
def isAvailable (c : CCoins) (nPos : ℕ) : Bool :=
  match c.vout[nPos]? with
  | some o => !o.isNull
  | none => false

/-- `CCoins::IsPruned`. -/
def isPruned (c : CCoins) : Bool := c.vout.all CTxOut.isNull

/-- `CCoins::Spend`; `none` is its `return false`. -/
def spend (c : CCoins) (nPos : ℕ) : Option CCoins :=
  if c.isAvailable nPos then some (cleanup { c with vout := c.vout.set nPos CTxOut.null })
  else none

/-- `operator==`: coins without unspent outputs are all equal. -/
def same (a b : CCoins) : Bool := (a.isPruned && b.isPruned) || a == b

/-- There is no spent output at the end. -/
def Clean (c : CCoins) : Prop := c.cleanup = c

/-- `Clean`, and all spent outputs look alike. -/
structure Canonical (c : CCoins) : Prop where
  clean : c.Clean
  nulls : ∀ o ∈ c.vout, o.isNull = true → o = CTxOut.null

/-- A value with absent and pruned coins identified. -/
def norm (o : Option CCoins) : Option CCoins := o.filter fun c => !c.isPruned

instance (c : CCoins) : Decidable c.Clean := inferInstanceAs (Decidable (c.cleanup = c))

/-! ## Cleaning up -/

variable {c : CCoins}

@[simp] theorem clean_cleanup (c : CCoins) : c.cleanup.Clean := by
  simp [Clean, cleanup, List.rdropWhile_idempotent]

theorem clean_empty : empty.Clean := by decide

/-- `Cleanup` drops no unspent output. -/
@[simp] theorem isPruned_cleanup (c : CCoins) : c.cleanup.isPruned = c.isPruned := by
  have hsplit := List.rdropWhile_append_rtakeWhile (p := CTxOut.isNull) (l := c.vout)
  have htail : (c.vout.rtakeWhile CTxOut.isNull).all CTxOut.isNull = true :=
    List.all_eq_true.mpr fun o ho => List.mem_rtakeWhile_imp ho
  unfold isPruned cleanup
  conv_rhs => rw [← hsplit, List.all_append, htail, Bool.and_true]

/-- Clean coins are pruned exactly when they have no outputs. -/
theorem Clean.isPruned_iff (h : c.Clean) : c.isPruned = true ↔ c.vout = [] := by
  constructor
  · intro hp
    have hnil : c.vout.rdropWhile CTxOut.isNull = [] :=
      List.rdropWhile_eq_nil_iff.mpr (List.all_eq_true.mp hp)
    have hv : c.cleanup.vout = c.vout := congrArg CCoins.vout h
    exact hv.symm.trans hnil
  · intro hv
    rw [isPruned, hv]
    rfl

/-! ## Values -/

@[simp] theorem norm_none : norm none = none := rfl

theorem norm_some_of_pruned (h : c.isPruned = true) : norm (some c) = none := by
  simp [norm, h]

theorem norm_some_of_not_pruned (h : ¬ c.isPruned = true) : norm (some c) = some c := by
  simp [norm, h]

theorem norm_some_eq_none_iff : norm (some c) = none ↔ c.isPruned = true := by
  simp [norm]

/-- Two coins have the same value exactly when `operator==` holds. -/
theorem same_iff (a b : CCoins) : a.same b = true ↔ norm (some a) = norm (some b) := by
  by_cases ha : a.isPruned = true
  · by_cases hb : b.isPruned = true
    · simp [same, ha, hb, norm_some_of_pruned]
    · rw [norm_some_of_pruned ha, norm_some_of_not_pruned hb]
      simp only [same, ha, hb, Bool.and_false, Bool.false_or, beq_iff_eq, reduceCtorEq,
        iff_false]
      rintro rfl
      exact hb ha
  · rw [norm_some_of_not_pruned ha]
    by_cases hb : b.isPruned = true
    · rw [norm_some_of_pruned hb]
      simp only [same, ha, Bool.false_and, Bool.false_or, beq_iff_eq, reduceCtorEq, iff_false]
      rintro rfl
      exact ha hb
    · simp [same, ha, norm_some_of_not_pruned hb]

end CCoins
