/-
# The status of a block

The bits of `BlockStatus` and `CBlockIndex::IsValid` (`libs/server/chain.h`).
-/
import Mathlib.Tactic.Common

namespace BlockStatus

def validTree : UInt32 := 2
def validTransactions : UInt32 := 3
def validMask : UInt32 := 7
def haveData : UInt32 := 8
def failedValid : UInt32 := 32
def failedChild : UInt32 := 64
def failedMask : UInt32 := failedValid ||| failedChild

/-- `CBlockIndex::IsValid`, of a block with this `nStatus`. -/
def isValid (nStatus nUpTo : UInt32) : Bool :=
  if nStatus &&& failedMask ≠ 0 then false else decide (nUpTo ≤ nStatus &&& validMask)

/-- `nStatus & flag`, as a condition. -/
def has (nStatus flag : UInt32) : Bool := nStatus &&& flag != 0

/-- `nStatus & ~BLOCK_FAILED_MASK`. -/
def clear (nStatus : UInt32) : UInt32 := nStatus &&& ~~~failedMask

variable {nStatus nUpTo flag : UInt32}

theorem has_eq_false_iff : has nStatus flag = false ↔ nStatus &&& flag = 0 := by
  rw [has, bne_eq_false_iff_eq]

/-- A valid block has no failure flag. -/
theorem has_failedMask_of_isValid (h : isValid nStatus nUpTo = true) :
    has nStatus failedMask = false := by
  rw [has_eq_false_iff]
  by_contra hfailed
  rw [isValid, if_pos hfailed] at h
  cases h

/-- Without a failure flag there is none of the two. -/
theorem has_eq_false_of_failedMask (h : has nStatus failedMask = false)
    (hflag : failedMask &&& flag = flag) : has nStatus flag = false := by
  rw [has_eq_false_iff] at h ⊢
  rw [← hflag, ← UInt32.and_assoc, h, UInt32.zero_and]

theorem has_clear : has (clear nStatus) failedMask = false := by
  have hmask : ~~~failedMask &&& failedMask = 0 := by decide
  rw [has_eq_false_iff, clear, UInt32.and_assoc, hmask, UInt32.and_zero]

theorem or_and (a b c : UInt32) : (a ||| b) &&& c = (a &&& c) ||| (b &&& c) := by
  apply UInt32.toBitVec_inj.mp
  rw [UInt32.toBitVec_and, UInt32.toBitVec_or, UInt32.toBitVec_or, UInt32.toBitVec_and,
    UInt32.toBitVec_and]
  exact BitVec.and_or_distrib_right

/-- Flags that are set, and those that were set. -/
theorem has_or (nStatus flag flag' : UInt32) :
    has (nStatus ||| flag) flag' = (has nStatus flag' || has flag flag') := by
  rw [Bool.eq_iff_iff, Bool.or_eq_true, has, has, has, bne_iff_ne, bne_iff_ne, bne_iff_ne, or_and,
    Ne, UInt32.or_eq_zero_iff, not_and_or]

end BlockStatus
