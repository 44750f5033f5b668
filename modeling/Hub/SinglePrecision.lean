/-
# Single precision

Natural numbers and their quotients in IEEE 754 single precision: 24 bits, rounded to the
nearest number and to the even one of two.  A number from `1` on is a significand times a power
of two; `ofNat` rounds a natural number, `ceilDiv` divides two numbers, rounds the quotient and
takes the least natural number not below it.

Up to `2 ^ 24` nothing is lost (`ceilDiv_of_lt`).
-/
import Mathlib.Algebra.Order.Ring.Nat
import Mathlib.Data.Nat.Log
import Mathlib.Tactic.Ring

namespace SinglePrecision

/-- The natural number nearest to `a / b`, the even one of two. -/
def roundDiv (a b : ℕ) : ℕ :=
  if 2 * (a % b) < b then a / b
  else if b < 2 * (a % b) then a / b + 1
  else if a / b % 2 = 0 then a / b
  else a / b + 1

/-- A natural number, rounded. -/
def ofNat (n : ℕ) : ℕ :=
  if n < 2 ^ 24 then n else roundDiv n (2 ^ (n.log2 - 23)) * 2 ^ (n.log2 - 23)

/-- The least natural number not below the rounded quotient of `a` and `b`, for a quotient
from `1` on.  The significand has its last bit at `2 ^ (e - 23)`, if the quotient is between
`2 ^ e` and `2 ^ (e + 1)`. -/
def ceilDiv (a b : ℕ) : ℕ :=
  let e := (a / b).log2
  if e ≤ 23 then (roundDiv (a * 2 ^ (23 - e)) b + (2 ^ (23 - e) - 1)) / 2 ^ (23 - e)
  else roundDiv a (b * 2 ^ (e - 23)) * 2 ^ (e - 23)

theorem roundDiv_le {a b k : ℕ} (hb : 0 < b) (h : a ≤ k * b) : roundDiv a b ≤ k := by
  have hdiv : a / b ≤ k := by
    rw [← Nat.mul_div_cancel k hb]
    exact Nat.div_le_div_right h
  have hmod := Nat.div_add_mod a b
  unfold roundDiv
  by_cases hk : a / b = k
  · -- then there is no remainder
    have hzero : a % b = 0 := by
      rw [hk, Nat.mul_comm] at hmod
      omega
    rw [if_pos (by omega)]
    exact hdiv
  · split_ifs <;> omega

theorem lt_roundDiv {a b k : ℕ} (hb : 0 < b) (h : (2 * k + 1) * b < 2 * a) :
    k < roundDiv a b := by
  have hmod := Nat.div_add_mod a b
  have hlt := Nat.mod_lt a hb
  unfold roundDiv
  by_cases hk : k < a / b
  · split_ifs <;> omega
  · -- the quotient is `k`, and more than half of `b` is left
    have hle : b * (a / b) ≤ b * k := Nat.mul_le_mul_left b (not_lt.mp hk)
    have heq : a / b = k := by
      refine le_antisymm (not_lt.mp hk) ?_
      by_contra hlt'
      have hsucc : b * (a / b) + b ≤ b * k := by
        rw [← Nat.mul_succ]
        exact Nat.mul_le_mul_left b (not_le.mp hlt')
      have hexp : (2 * k + 1) * b = 2 * (b * k) + b := by ring
      omega
    have hexp : (2 * k + 1) * b = 2 * (b * k) + b := by ring
    rw [heq] at hmod ⊢
    rw [if_neg (by omega), if_pos (by omega)]
    exact Nat.lt_succ_self k

/-- **No loss.**  Numbers below `2 ^ 24` are divided without loss. -/
theorem ceilDiv_of_lt {a b : ℕ} (hb : 0 < b) (hab : b ≤ a) (h : a < 2 ^ 24) :
    ceilDiv (ofNat a) b = (a + (b - 1)) / b := by
  rw [ofNat, if_pos h, ceilDiv]
  have hquot : a / b ≠ 0 := Nat.div_ne_zero_iff.mpr ⟨by omega, hab⟩
  set e := (a / b).log2 with he
  have hpow : 2 ^ e ≤ a / b := Nat.log2_self_le hquot
  have hmul : 2 ^ e * b ≤ a := (Nat.le_div_iff_mul_le hb).mp hpow
  have hle : e ≤ 23 := by
    by_contra hgt
    have : 2 ^ 24 ≤ 2 ^ e := Nat.pow_le_pow_right (by omega) (by omega)
    have : 2 ^ e * 1 ≤ 2 ^ e * b := Nat.mul_le_mul_left _ hb
    omega
  simp only [if_pos hle]
  set d := 2 ^ (23 - e) with hd
  have hdpos : 0 < d := Nat.two_pow_pos _
  -- half a unit in the last place is less than one over `b`
  have hfine : b < 2 * d := by
    have hprod : 2 ^ e * d = 2 ^ 23 := by
      rw [hd, ← pow_add]
      congr 1
      omega
    by_contra hge
    have : 2 ^ e * (2 * d) ≤ 2 ^ e * b := Nat.mul_le_mul_left _ (not_lt.mp hge)
    have hexp : 2 ^ e * (2 * d) = 2 * (2 ^ e * d) := by ring
    omega
  set c := (a + (b - 1)) / b with hc
  have hcb : a ≤ c * b := by
    have hlt := Nat.lt_div_mul_add (a := a + (b - 1)) hb
    rw [← hc] at hlt
    omega
  have hcb' : (c - 1) * b < a := by
    have hle' : c * b ≤ a + (b - 1) := Nat.div_mul_le_self _ _
    rw [Nat.sub_mul]
    omega
  have hcpos : 0 < c := by
    rw [hc]
    exact Nat.div_pos (by omega) hb
  have hupper : roundDiv (a * d) b ≤ c * d := by
    refine roundDiv_le hb ?_
    calc a * d ≤ c * b * d := Nat.mul_le_mul_right d hcb
      _ = c * d * b := by ring
  have hlower : (c - 1) * d < roundDiv (a * d) b := by
    refine lt_roundDiv hb ?_
    have hstep : ((c - 1) * b + 1) * d ≤ a * d := Nat.mul_le_mul_right d hcb'
    have hexp : (2 * ((c - 1) * d) + 1) * b = 2 * ((c - 1) * b * d) + b := by ring
    have hexp' : ((c - 1) * b + 1) * d = (c - 1) * b * d + d := by ring
    omega
  have hcd : c * d = (c - 1) * d + d := by
    conv_lhs => rw [← Nat.sub_add_cancel hcpos]
    ring
  apply le_antisymm
  · rw [← Nat.lt_succ_iff, Nat.div_lt_iff_lt_mul hdpos, Nat.succ_mul]
    omega
  · rw [Nat.le_div_iff_mul_le hdpos]
    omega

end SinglePrecision
