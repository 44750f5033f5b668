/-
# The work of a block

`GetBlockProof` (`libs/server/pow.cpp`) turns the compact form of the target of a block into
the expected number of hashes to reach it, `2 ^ 256 / (target + 1)`; the compact form is read
by `arith_uint256::SetCompact` (`libs/server/arith_uint256.cpp`).  All numbers are below
`2 ^ 256`.
-/
import Mathlib

/-- `arith_uint256::SetCompact`: the number, and the flags for a negative number and for
an overflow. -/
def setCompact (nCompact : UInt32) : ℕ × Bool × Bool :=
  let nSize := nCompact.toNat >>> 24
  let nWord := nCompact.toNat &&& 0x007fffff
  let nWord := if nSize ≤ 3 then nWord >>> (8 * (3 - nSize)) else nWord
  let value := if nSize ≤ 3 then nWord else nWord <<< (8 * (nSize - 3)) % 2 ^ 256
  let fNegative := nWord != 0 && (nCompact.toNat &&& 0x00800000) != 0
  let fOverflow := nWord != 0 && (decide (nSize > 34) || (decide (nWord > 0xff) && decide (nSize > 33))
    || (decide (nWord > 0xffff) && decide (nSize > 32)))
  (value, fNegative, fOverflow)

/-- `GetBlockProof`. -/
def getBlockProof (nBits : UInt32) : ℕ :=
  let (bnTarget, fNegative, fOverflow) := setCompact nBits
  if fNegative || fOverflow || bnTarget == 0 then 0
  else ((2 ^ 256 - 1 - bnTarget) / ((bnTarget + 1) % 2 ^ 256) + 1) % 2 ^ 256

/-- The compact form is that of a target. -/
def ValidBits (nBits : UInt32) : Prop :=
  (setCompact nBits).2.1 = false ∧ (setCompact nBits).2.2 = false ∧ (setCompact nBits).1 ≠ 0

instance (nBits : UInt32) : Decidable (ValidBits nBits) :=
  inferInstanceAs (Decidable (_ ∧ _ ∧ _))

/-- A block with a valid target is worth at least one hash. -/
theorem getBlockProof_pos {nBits : UInt32} (h : ValidBits nBits) : 0 < getBlockProof nBits := by
  obtain ⟨hneg, hover, hne⟩ := h
  have hdiv : (2 ^ 256 - 1 - (setCompact nBits).1) / (((setCompact nBits).1 + 1) % 2 ^ 256)
      ≤ 2 ^ 256 - 1 - (setCompact nBits).1 := Nat.div_le_self _ _
  unfold getBlockProof
  simp only [hneg, hover, Bool.or_self, Bool.false_or, beq_iff_eq, hne, if_false]
  rw [Nat.mod_eq_of_lt (by omega)]
  exact Nat.succ_pos _

theorem getBlockProof_lt (nBits : UInt32) : getBlockProof nBits < 2 ^ 256 := by
  unfold getBlockProof
  simp only
  split
  · exact Nat.two_pow_pos 256
  · exact Nat.mod_lt _ (Nat.two_pow_pos 256)
