/-
# 256-bit numbers and their compact form

`arith_uint256` (`libs/server/arith_uint256.h`, `arith_uint256.cpp`): the operators of `base_uint` at
eight words, `SetCompact` and `GetCompact`.

The compact form keeps the leading bytes of a number (`Compact.roundCompact`).
-/
import Hub.BaseUint
import Hub.BlockProof

/-- `arith_uint256`. -/
structure ArithUint256 where
  pn : List UInt32
  width : pn.length = 8
  deriving DecidableEq

namespace ArithUint256

/-- The number. -/
def toNat (a : ArithUint256) : ℕ := BaseUint.toNat a.pn

/-- `base_uint(uint64_t)`. -/
def ofUInt64 (b : UInt64) : ArithUint256 where
  pn := [b.toUInt32, (b >>> 32).toUInt32, 0, 0, 0, 0, 0, 0]
  width := rfl

/-- A number that is known by its value, modulo `2 ^ 256`. -/
def ofNat (n : ℕ) : ArithUint256 where
  pn := (List.range 8).map fun i => UInt32.ofNat (n >>> (32 * i))
  width := rfl

/-- `operator+`. -/
def add (a b : ArithUint256) : ArithUint256 where
  pn := BaseUint.add a.pn b.pn
  width := (BaseUint.length_addLoop 0 a.pn b.pn (a.width.trans b.width.symm)).trans a.width

/-- `operator-()`. -/
def neg (a : ArithUint256) : ArithUint256 where
  pn := BaseUint.neg a.pn
  width := (BaseUint.length_neg a.pn).trans a.width

/-- `operator-`. -/
def sub (a b : ArithUint256) : ArithUint256 where
  pn := BaseUint.sub a.pn b.pn
  width := (BaseUint.length_sub a.pn b.pn (a.width.trans b.width.symm)).trans a.width

/-- `operator*=`, on a `uint32_t`. -/
def mul (a : ArithUint256) (b32 : UInt32) : ArithUint256 where
  pn := BaseUint.mul a.pn b32
  width := (BaseUint.length_mulLoop b32 0 a.pn).trans a.width

/-- `operator<<=`. -/
def shiftLeft (a : ArithUint256) (shift : ℕ) : ArithUint256 where
  pn := BaseUint.shiftLeft a.pn shift
  width := (BaseUint.length_shiftLeft a.pn shift).trans a.width

/-- `operator>>=`. -/
def shiftRight (a : ArithUint256) (shift : ℕ) : ArithUint256 where
  pn := BaseUint.shiftRight a.pn shift
  width := (BaseUint.length_shiftRight a.pn shift).trans a.width

/-- `operator/`; nothing is returned for a division by zero. -/
def div (a b : ArithUint256) : Option ArithUint256 :=
  (BaseUint.divide a.pn b.pn).pmap (fun q hq => ⟨q, hq⟩)
    fun _ hq => (BaseUint.length_divide hq).trans a.width

/-- `operator>`. -/
def gt (a b : ArithUint256) : Bool := BaseUint.compareTo a.pn b.pn == .gt

/-- `bits`. -/
def bits (a : ArithUint256) : ℕ := BaseUint.bits a.pn

/-- `GetLow64`. -/
def getLow64 (a : ArithUint256) : UInt64 :=
  (a.pn.getD 0 0).toUInt64 ||| (a.pn.getD 1 0).toUInt64 <<< 32

/-- `SetCompact`: the number, and the flags for a negative number and for an overflow. -/
def setCompact (nCompact : UInt32) : ArithUint256 × Bool × Bool :=
  let nSize := (nCompact >>> 24).toNat
  let nWord := nCompact &&& 0x007fffff
  let nWord := if nSize ≤ 3 then nWord >>> UInt32.ofNat (8 * (3 - nSize)) else nWord
  let value :=
    if nSize ≤ 3 then ofUInt64 nWord.toUInt64
    else shiftLeft (ofUInt64 nWord.toUInt64) (8 * (nSize - 3))
  (value, nWord != 0 && nCompact &&& 0x00800000 != 0,
    nWord != 0 && (decide (nSize > 34) || (decide (nWord > 0xff) && decide (nSize > 33)) ||
      (decide (nWord > 0xffff) && decide (nSize > 32))))

/-- `GetCompact` of a number that is not negative; nothing is returned when an assertion fails. -/
def getCompact (a : ArithUint256) : Option UInt32 :=
  let nSize := (a.bits + 7) / 8
  let nCompact :=
    if nSize ≤ 3 then (a.getLow64 <<< UInt64.ofNat (8 * (3 - nSize))).toUInt32
    else (a.shiftRight (8 * (nSize - 3))).getLow64.toUInt32
  let (nCompact, nSize) :=
    if nCompact &&& 0x00800000 ≠ 0 then (nCompact >>> 8, nSize + 1) else (nCompact, nSize)
  if nCompact &&& ~~~0x007fffff ≠ 0 ∨ ¬ nSize < 256 then none
  else some (nCompact ||| UInt32.ofNat nSize <<< 24)

/-! ## Values -/

variable {a b : ArithUint256}

theorem toNat_lt (a : ArithUint256) : a.toNat < 2 ^ 256 := by
  have h := BaseUint.toNat_lt a.pn
  rwa [a.width] at h

theorem toNat_inj (h : a.toNat = b.toNat) : a = b := by
  obtain ⟨pn, width⟩ := a
  obtain ⟨qn, width'⟩ := b
  have hpn : pn = qn := BaseUint.toNat_inj (width.trans width'.symm) h
  subst hpn
  rfl

theorem toNat_ofUInt64 (b : UInt64) : (ofUInt64 b).toNat = b.toNat := by
  have hshift : (b >>> 32).toNat = b.toNat / 2 ^ 32 := by
    rw [UInt64.toNat_shiftRight, Nat.shiftRight_eq_div_pow]
    rfl
  have hlt := b.toNat_lt
  simp only [toNat, ofUInt64, BaseUint.toNat, UInt64.toNat_toUInt32, hshift, UInt32.toNat_zero]
  omega

theorem toNat_ofNat {n : ℕ} (h : n < 2 ^ 256) : (ofNat n).toNat = n := by
  apply Nat.eq_of_testBit_eq
  intro i
  by_cases hi : i < 32 * 8
  · rw [toNat, ofNat, BaseUint.testBit_toNat_map hi, UInt32.toNat_ofNat', Nat.testBit_mod_two_pow,
      Nat.testBit_shiftRight, decide_eq_true (Nat.mod_lt _ (by decide)), Bool.true_and,
      Nat.div_add_mod]
  · rw [toNat, BaseUint.testBit_toNat_of_le (by rw [(ofNat n).width]; omega), eq_comm]
    exact Nat.testBit_lt_two_pow (lt_of_lt_of_le h (Nat.pow_le_pow_right (by decide) (by omega)))

theorem toNat_add (h : a.toNat + b.toNat < 2 ^ 256) : (a.add b).toNat = a.toNat + b.toNat := by
  have hadd := BaseUint.toNat_add (a.width.trans b.width.symm)
  rw [a.width] at hadd
  exact hadd.trans (Nat.mod_eq_of_lt h)

theorem toNat_neg (h : 0 < a.toNat) : a.neg.toNat = 2 ^ 256 - a.toNat := by
  have hneg := BaseUint.toNat_neg a.pn
  rw [a.width] at hneg
  exact hneg.trans (Nat.mod_eq_of_lt (Nat.sub_lt (Nat.two_pow_pos 256) h))

theorem toNat_sub (h : b.toNat ≤ a.toNat) : (a.sub b).toNat = a.toNat - b.toNat :=
  BaseUint.toNat_sub (a.width.trans b.width.symm) h

theorem toNat_mul {b32 : UInt32} (h : a.toNat * b32.toNat < 2 ^ 256) :
    (a.mul b32).toNat = a.toNat * b32.toNat := by
  have hmul := BaseUint.toNat_mul a.pn b32
  rw [a.width] at hmul
  exact hmul.trans (Nat.mod_eq_of_lt h)

theorem toNat_shiftRight (shift : ℕ) : (a.shiftRight shift).toNat = a.toNat / 2 ^ shift :=
  (BaseUint.toNat_shiftRight a.pn shift).trans (Nat.shiftRight_eq_div_pow _ _)

theorem div_eq (h : b.toNat ≠ 0) : ∃ q, a.div b = some q ∧ q.toNat = a.toNat / b.toNat := by
  obtain ⟨q, hq, hvalue⟩ := BaseUint.divide_eq (a.width.trans b.width.symm) h
  refine ⟨⟨q, (BaseUint.length_divide hq).trans a.width⟩, ?_, hvalue⟩
  rw [div]
  simp only [hq, Option.pmap_some]

theorem gt_eq : a.gt b = decide (b.toNat < a.toNat) := by
  rw [gt, BaseUint.compareTo_eq (a.width.trans b.width.symm)]
  show (compare a.toNat b.toNat == .gt) = _
  by_cases h : b.toNat < a.toNat
  · rw [Nat.compare_eq_gt.mpr h, decide_eq_true h]
    rfl
  · rw [decide_eq_false h, beq_eq_false_iff_ne, Ne, Nat.compare_eq_gt]
    exact h

theorem bits_eq (a : ArithUint256) : a.bits = a.toNat.size := BaseUint.bits_eq a.pn

theorem toNat_getLow64 (a : ArithUint256) : a.getLow64.toNat = a.toNat % 2 ^ 64 := by
  obtain ⟨pn, width⟩ := a
  obtain _ | ⟨p, _ | ⟨q, rest⟩⟩ := pn
  · cases width
  · cases width
  · have hp := p.toNat_lt
    have hq := q.toNat_lt
    have hhigh : (q.toUInt64 <<< 32).toNat = 2 ^ 32 * q.toNat := by
      rw [UInt64.toNat_shiftLeft, UInt32.toNat_toUInt64, Nat.shiftLeft_eq]
      show q.toNat * 2 ^ 32 % 2 ^ 64 = _
      omega
    show (p.toUInt64 ||| q.toUInt64 <<< 32).toNat = BaseUint.toNat (p :: q :: rest) % 2 ^ 64
    rw [UInt64.toNat_or, UInt32.toNat_toUInt64, hhigh, Nat.or_comm,
      ← Nat.two_pow_add_eq_or_of_lt hp, BaseUint.toNat, BaseUint.toNat]
    omega

end ArithUint256

/-! ## The compact form -/

namespace Compact

/-- What is left of a number in the compact form. -/
def roundCompact (v : ℕ) : ℕ := v / 2 ^ (8 * (v.size / 8 - 2)) * 2 ^ (8 * (v.size / 8 - 2))

theorem roundCompact_le (v : ℕ) : roundCompact v ≤ v := Nat.div_mul_le_self _ _

/-- A number that loses bytes has more than the compact form keeps. -/
theorem two_pow_le_of_size {v : ℕ} (h : 3 ≤ v.size / 8) : 2 ^ (8 * (v.size / 8 - 2) + 15) ≤ v :=
  Nat.lt_size.mp (by omega)

theorem roundCompact_pos {v : ℕ} (h : 0 < v) : 0 < roundCompact v := by
  apply Nat.mul_pos _ (Nat.two_pow_pos _)
  apply Nat.div_pos _ (Nat.two_pow_pos _)
  by_cases hsize : 3 ≤ v.size / 8
  · exact le_trans (Nat.pow_le_pow_right (by decide) (by omega)) (two_pow_le_of_size hsize)
  · rw [show 8 * (v.size / 8 - 2) = 0 from by omega, Nat.pow_zero]
    exact h

/-- The highest bit stays. -/
theorem size_roundCompact (v : ℕ) : (roundCompact v).size = v.size := by
  by_cases hzero : v = 0
  · subst hzero
    simp [roundCompact]
  · have hsize : v.size ≠ 0 := fun h => hzero (Nat.size_eq_zero.mp h)
    have hlow := Nat.lt_size.mp (Nat.sub_one_lt hsize)
    have hhigh := lt_of_le_of_lt (roundCompact_le v) (Nat.lt_size_self v)
    have hkept : 2 ^ (v.size - 1) ≤ roundCompact v := by
      have hsplit : 2 ^ (v.size - 1) =
          2 ^ (v.size - 1 - 8 * (v.size / 8 - 2)) * 2 ^ (8 * (v.size / 8 - 2)) := by
        rw [← pow_add]
        congr 1
        omega
      rw [hsplit] at hlow ⊢
      exact Nat.mul_le_mul_right _ ((Nat.le_div_iff_mul_le (Nat.two_pow_pos _)).mpr hlow)
    rw [BaseUint.size_eq_succ hkept (by rwa [Nat.sub_add_cancel (by omega)]),
      Nat.sub_add_cancel (by omega)]

/-- What is left in the compact form stays. -/
theorem roundCompact_roundCompact (v : ℕ) : roundCompact (roundCompact v) = roundCompact v := by
  rw [roundCompact, size_roundCompact, roundCompact, Nat.mul_div_cancel _ (Nat.two_pow_pos _)]

/-- `SetCompact` in words is `SetCompact` in numbers. -/
theorem setCompact_toNat (nCompact : UInt32) :
    (ArithUint256.setCompact nCompact).1.toNat = (setCompact nCompact).1 ∧
      (ArithUint256.setCompact nCompact).2 = (setCompact nCompact).2 := by
  have hsize : (nCompact >>> 24).toNat = nCompact.toNat >>> 24 := UInt32.toNat_shiftRight _ _
  have hsign : (nCompact &&& 0x00800000).toNat = nCompact.toNat &&& 0x00800000 :=
    UInt32.toNat_and _ _
  have hzero : ∀ w : UInt32, (w != 0) = (w.toNat != 0) := by
    intro w
    rw [Bool.eq_iff_iff, bne_iff_ne, bne_iff_ne, Ne, Ne, ← UInt32.toNat_inj, UInt32.toNat_zero]
  unfold ArithUint256.setCompact setCompact
  simp only
  rw [hsize, hzero, hzero, hsign]
  set nSize := nCompact.toNat >>> 24 with hn
  have hword : (if nSize ≤ 3 then (nCompact &&& 0x007fffff) >>> UInt32.ofNat (8 * (3 - nSize))
      else nCompact &&& 0x007fffff).toNat =
      if nSize ≤ 3 then (nCompact.toNat &&& 0x007fffff) >>> (8 * (3 - nSize))
      else nCompact.toNat &&& 0x007fffff := by
    split_ifs
    · rw [UInt32.toNat_shiftRight, BaseUint.toNat_shiftWord (by omega)]
      rfl
    · exact UInt32.toNat_and _ _
  generalize (if nSize ≤ 3 then (nCompact &&& 0x007fffff) >>> UInt32.ofNat (8 * (3 - nSize))
      else nCompact &&& 0x007fffff) = w at hword ⊢
  rw [← hword]
  refine ⟨?_, ?_⟩
  · split_ifs
    · rw [ArithUint256.toNat_ofUInt64, UInt32.toNat_toUInt64]
    · rw [← UInt32.toNat_toUInt64 w, ← ArithUint256.toNat_ofUInt64]
      have hshift := BaseUint.toNat_shiftLeft (ArithUint256.ofUInt64 w.toUInt64).pn (8 * (nSize - 3))
      rwa [(ArithUint256.ofUInt64 w.toUInt64).width] at hshift
  · rfl

/-- The compact form with the exponent `n` and the mantissa `m`. -/
theorem setCompact_of_parts {c : UInt32} {m n : ℕ} (hc : c.toNat = n * 2 ^ 24 + m) (hm : m < 2 ^ 23)
    (hn : n ≤ 33) (hmax : n = 33 → m < 2 ^ 16) :
    setCompact c = (if n ≤ 3 then m / 2 ^ (8 * (3 - n)) else m * 2 ^ (8 * (n - 3)), false, false) := by
  have hsize : c.toNat >>> 24 = n := by
    rw [Nat.shiftRight_eq_div_pow]
    omega
  have hword : c.toNat &&& 0x007fffff = m := by
    have hmod := Nat.and_two_pow_sub_one_eq_mod c.toNat 23
    rw [show (0x007fffff : ℕ) = 2 ^ 23 - 1 from rfl, hmod]
    omega
  have hsign : c.toNat &&& 0x00800000 = 0 := by
    rw [show (0x00800000 : ℕ) = 2 ^ 23 from rfl, Nat.and_two_pow, Nat.testBit_eq_decide_div_mod_eq,
      decide_eq_false (by omega)]
    rfl
  unfold setCompact
  simp only
  rw [hsize, hword, hsign]
  by_cases h3 : n ≤ 3
  · rw [if_pos h3, if_pos h3, if_pos h3, Nat.shiftRight_eq_div_pow]
    simp [show ¬ n > 34 from by omega, show ¬ n > 33 from by omega, show ¬ n > 32 from by omega]
  · have hover : (decide (m > 0xffff) && decide (n > 32)) = false := by
      by_cases h33 : n = 33
      · have := hmax h33
        rw [decide_eq_false (by omega : ¬ m > 0xffff), Bool.false_and]
      · rw [decide_eq_false (by omega : ¬ n > 32), Bool.and_false]
    have hfit : m * 2 ^ (8 * (n - 3)) < 2 ^ 256 := by
      by_cases h33 : n = 33
      · subst h33
        have := hmax rfl
        omega
      · calc m * 2 ^ (8 * (n - 3)) < 2 ^ 23 * 2 ^ (8 * (n - 3)) :=
              Nat.mul_lt_mul_of_pos_right hm (Nat.two_pow_pos _)
          _ = 2 ^ (23 + 8 * (n - 3)) := (pow_add 2 23 _).symm
          _ ≤ 2 ^ 256 := Nat.pow_le_pow_right (by decide) (by omega)
    rw [if_neg h3, if_neg h3, if_neg h3, Nat.shiftLeft_eq, Nat.mod_eq_of_lt hfit, hover]
    simp [show ¬ n > 34 from by omega, show ¬ n > 33 from by omega]

/-- A word below `2 ^ 23` passes the first assertion of `GetCompact`. -/
theorem and_not_mantissa {w : UInt32} (hw : w.toNat < 2 ^ 23) : w &&& ~~~0x007fffff = 0 := by
  apply UInt32.toNat_inj.mp
  rw [UInt32.toNat_and, show (~~~0x007fffff : UInt32).toNat = 2 ^ 23 * 511 from rfl]
  apply Nat.eq_of_testBit_eq
  intro i
  rw [Nat.testBit_and, Nat.testBit_two_pow_mul, UInt32.toNat_zero, Nat.zero_testBit]
  by_cases hi : i < 23
  · rw [decide_eq_false (by omega), Bool.false_and, Bool.and_false]
  · rw [Nat.testBit_lt_two_pow (lt_of_lt_of_le hw (Nat.pow_le_pow_right (by decide) (not_lt.mp hi))),
      Bool.false_and]

/-- The bit of the sign, in a word of 24 bits. -/
theorem sign_ne_zero {w : UInt32} (hw : w.toNat < 2 ^ 24) :
    w &&& 0x00800000 ≠ 0 ↔ 2 ^ 23 ≤ w.toNat := by
  have hbit := BaseUint.and_one_shiftLeft_ne_zero (p := w) (k := 23) (by decide)
  rw [show (1 <<< UInt32.ofNat 23 : UInt32) = 0x00800000 from rfl,
    Nat.testBit_eq_decide_div_mod_eq, decide_eq_true_iff] at hbit
  rw [hbit]
  omega

/-- The parts of a compact form are put together. -/
theorem compact_parts {w : UInt32} {n : ℕ} (hw : w.toNat < 2 ^ 23) (hn : n < 256) :
    (w ||| UInt32.ofNat n <<< 24).toNat = n * 2 ^ 24 + w.toNat := by
  have hhigh : (UInt32.ofNat n <<< 24).toNat = 2 ^ 24 * n := by
    rw [UInt32.toNat_shiftLeft, UInt32.toNat_ofNat_of_lt' (lt_trans hn (by decide)), Nat.shiftLeft_eq]
    show n * 2 ^ 24 % 2 ^ 32 = _
    omega
  rw [UInt32.toNat_or, hhigh, Nat.or_comm, ← Nat.two_pow_add_eq_or_of_lt (by omega), Nat.mul_comm]

/-- The bytes that `GetCompact` begins with. -/
def leadingBytes (v n : ℕ) : ℕ := if n ≤ 3 then v * 2 ^ (8 * (3 - n)) else v / 2 ^ (8 * (n - 3))

theorem leadingBytes_lt {v n : ℕ} (hv : v < 2 ^ (8 * n)) : leadingBytes v n < 2 ^ 24 := by
  unfold leadingBytes
  split_ifs with h
  · calc v * 2 ^ (8 * (3 - n)) < 2 ^ (8 * n) * 2 ^ (8 * (3 - n)) :=
          Nat.mul_lt_mul_of_pos_right hv (Nat.two_pow_pos _)
      _ = 2 ^ 24 := by
          rw [← pow_add]
          congr 1
          omega
  · rw [Nat.div_lt_iff_lt_mul (Nat.two_pow_pos _), ← pow_add]
    rwa [show 24 + 8 * (n - 3) = 8 * n from by omega]

/-- The sign bit of the mantissa. -/
theorem le_leadingBytes {v n : ℕ} (hn : 0 < n) :
    2 ^ 23 ≤ leadingBytes v n ↔ 2 ^ (8 * n - 1) ≤ v := by
  unfold leadingBytes
  split_ifs with h
  · rw [show (2 : ℕ) ^ 23 = 2 ^ (8 * n - 1) * 2 ^ (8 * (3 - n)) from by
      rw [← pow_add]
      congr 1
      omega]
    exact Nat.mul_le_mul_right_iff (Nat.two_pow_pos _)
  · rw [Nat.le_div_iff_mul_le (Nat.two_pow_pos _), ← pow_add,
      show 23 + 8 * (n - 3) = 8 * n - 1 from by omega]

theorem leadingBytes_word (a : ArithUint256) {n : ℕ} (hv : a.toNat < 2 ^ (8 * n)) :
    (if n ≤ 3 then (a.getLow64 <<< UInt64.ofNat (8 * (3 - n))).toUInt32
      else (a.shiftRight (8 * (n - 3))).getLow64.toUInt32).toNat = leadingBytes a.toNat n := by
  have hlt := leadingBytes_lt hv
  unfold leadingBytes at hlt ⊢
  split_ifs at hlt ⊢ with h
  · have hshift : (UInt64.ofNat (8 * (3 - n))).toNat % 64 = 8 * (3 - n) := by
      rw [UInt64.toNat_ofNat_of_lt' (lt_of_le_of_lt (by omega : _ ≤ 24) (by decide)),
        Nat.mod_eq_of_lt (by omega)]
    have hsmall : a.toNat < 2 ^ 24 := lt_of_lt_of_le hv (Nat.pow_le_pow_right (by decide) (by omega))
    rw [UInt64.toNat_toUInt32, UInt64.toNat_shiftLeft, hshift, ArithUint256.toNat_getLow64,
      Nat.shiftLeft_eq, Nat.mod_eq_of_lt (by omega : a.toNat < 2 ^ 64)]
    omega
  · rw [UInt64.toNat_toUInt32, ArithUint256.toNat_getLow64, ArithUint256.toNat_shiftRight]
    rw [Nat.mod_eq_of_lt (lt_trans hlt (by decide)), Nat.mod_eq_of_lt (lt_trans hlt (by decide))]

/-- What is read back of the leading bytes. -/
theorem read_leadingBytes (v n : ℕ) :
    (if n ≤ 3 then leadingBytes v n / 2 ^ (8 * (3 - n)) else leadingBytes v n * 2 ^ (8 * (n - 3))) =
      v / 2 ^ (8 * (n - 3)) * 2 ^ (8 * (n - 3)) := by
  unfold leadingBytes
  split_ifs with h
  · rw [Nat.mul_div_cancel _ (Nat.two_pow_pos _), show 8 * (n - 3) = 0 from by omega, Nat.pow_zero,
      Nat.div_one, Nat.mul_one]
  · rfl

/-- One byte less. -/
theorem leadingBytes_succ (v n : ℕ) : leadingBytes v n / 2 ^ 8 = leadingBytes v (n + 1) := by
  unfold leadingBytes
  by_cases h2 : n ≤ 2
  · rw [if_pos (by omega), if_pos (by omega), show 8 * (3 - n) = 8 * (3 - (n + 1)) + 8 from by omega,
      pow_add, ← Nat.mul_assoc]
    exact Nat.mul_div_cancel _ (Nat.two_pow_pos 8)
  · by_cases h3 : n = 3
    · subst h3
      simp
    · rw [if_neg (by omega), if_neg (by omega), Nat.div_div_eq_div_mul, ← pow_add]
      congr 2
      omega

/-- The size byte of the compact form of a number. -/
def compactSize (v : ℕ) : ℕ := if v = 0 then 0 else v.size / 8 + 1

theorem compactSize_sub_three (v : ℕ) : compactSize v - 3 = v.size / 8 - 2 := by
  unfold compactSize
  split_ifs with h
  · rw [h, Nat.size_zero]
  · omega

theorem compactSize_le {v : ℕ} (h : v < 2 ^ 256) : compactSize v ≤ 33 := by
  have hsize := Nat.size_le.mpr h
  unfold compactSize
  split_ifs
  · omega
  · omega

/-- The mantissa leaves the sign bit alone. -/
theorem leadingBytes_compactSize_lt (v : ℕ) : leadingBytes v (compactSize v) < 2 ^ 23 := by
  unfold compactSize
  split_ifs with h
  · rw [h, leadingBytes, if_pos (by omega), Nat.zero_mul]
    omega
  · have hv := lt_of_lt_of_le (Nat.lt_size_self v)
      (Nat.pow_le_pow_right (by decide) (by omega : v.size ≤ 8 * (v.size / 8 + 1) - 1))
    exact not_le.mp (mt (le_leadingBytes (Nat.succ_pos _)).mp (not_le.mpr hv))

/-- At the largest size the mantissa has two bytes. -/
theorem leadingBytes_lt_of_compactSize {v : ℕ} (hv : v < 2 ^ 256) (h : compactSize v = 33) :
    leadingBytes v (compactSize v) < 2 ^ 16 := by
  rw [h, leadingBytes, if_neg (by decide), Nat.div_lt_iff_lt_mul (Nat.two_pow_pos _), ← pow_add]
  exact hv

/-- **`GetCompact`** puts the leading bytes behind the size byte. -/
theorem getCompact_parts (a : ArithUint256) : ∃ c, a.getCompact = some c ∧
    c.toNat = compactSize a.toNat * 2 ^ 24 + leadingBytes a.toNat (compactSize a.toNat) := by
  have hsize : a.toNat.size ≤ 256 := Nat.size_le.mpr a.toNat_lt
  have hmantissa := leadingBytes_compactSize_lt a.toNat
  set n := (a.toNat.size + 7) / 8 with hn
  have hv : a.toNat < 2 ^ (8 * n) :=
    lt_of_lt_of_le (Nat.lt_size_self _) (Nat.pow_le_pow_right (by decide) (by omega))
  have hword := leadingBytes_word a hv
  have hlt := leadingBytes_lt hv
  unfold ArithUint256.getCompact
  rw [ArithUint256.bits_eq]
  simp only
  rw [← hn]
  generalize (if n ≤ 3 then (a.getLow64 <<< UInt64.ofNat (8 * (3 - n))).toUInt32
      else (a.shiftRight (8 * (n - 3))).getLow64.toUInt32) = w at hword ⊢
  by_cases hsign : 2 ^ 23 ≤ w.toNat
  · -- the highest bit of the mantissa is set: it is put one byte down
    have hpos : 0 < n := by
      by_contra hzero
      rw [show n = 0 from by omega, Nat.mul_zero, Nat.pow_zero] at hv
      rw [hword, show a.toNat = 0 from by omega, leadingBytes, if_pos (by omega), Nat.zero_mul] at hsign
      omega
    have hfull : compactSize a.toNat = n + 1 := by
      have hlow := Nat.lt_size.mpr ((le_leadingBytes hpos).mp (hword ▸ hsign))
      rw [compactSize, if_neg (fun h => by rw [h, Nat.size_zero] at hn; omega)]
      omega
    have hshift : (w >>> 8).toNat = leadingBytes a.toNat (n + 1) := by
      rw [UInt32.toNat_shiftRight, hword, ← leadingBytes_succ, ← Nat.shiftRight_eq_div_pow]
      rfl
    rw [hfull] at hmantissa ⊢
    rw [if_pos (sign_ne_zero (hword ▸ hlt) |>.mpr hsign)]
    simp only
    rw [and_not_mantissa (by omega), if_neg (not_or.mpr ⟨not_not.mpr rfl, by omega⟩)]
    refine ⟨_, rfl, ?_⟩
    rw [compact_parts (by omega) (by omega), hshift]
  · have hfew : compactSize a.toNat = n := by
      by_cases hzero : a.toNat = 0
      · rw [compactSize, if_pos hzero, hn, hzero, Nat.size_zero]
      · have hsizePos : 0 < a.toNat.size := Nat.size_pos.mpr (Nat.pos_of_ne_zero hzero)
        have hnot := mt (le_leadingBytes (by omega : 0 < n)).mpr (hword ▸ hsign)
        have hhigh := Nat.size_le.mpr (not_le.mp hnot)
        rw [compactSize, if_neg hzero]
        omega
    rw [hfew]
    rw [if_neg (fun h => hsign ((sign_ne_zero (hword ▸ hlt)).mp h))]
    simp only
    rw [and_not_mantissa (by omega), if_neg (not_or.mpr ⟨not_not.mpr rfl, by omega⟩)]
    refine ⟨_, rfl, ?_⟩
    rw [compact_parts (by omega) (by omega), hword]

/-- **The compact form of a number** is read as what is left of it. -/
theorem getCompact_spec (a : ArithUint256) : ∃ c, a.getCompact = some c ∧
    setCompact c = (roundCompact a.toNat, false, false) := by
  obtain ⟨c, hc, hparts⟩ := getCompact_parts a
  refine ⟨c, hc, ?_⟩
  rw [setCompact_of_parts hparts (leadingBytes_compactSize_lt _) (compactSize_le a.toNat_lt)
      (leadingBytes_lt_of_compactSize a.toNat_lt), read_leadingBytes, roundCompact,
    compactSize_sub_three]

end Compact
