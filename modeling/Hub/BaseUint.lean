/-
# Big integers in words

The operators of `base_uint` (`libs/server/arith_uint256.h`, `arith_uint256.cpp`), for any width: a
number is a list of words of 32 bits, the lowest first (`toNat`).

* `toNat_add`, `toNat_neg`, `toNat_sub`, `toNat_mul` : sums and products, modulo `2 ^ (32 * width)`;
* `toNat_shiftLeft`, `toNat_shiftRight` : shifts, told by bits;
* `compareTo_eq`, `bits_eq` : comparison, and the number of bits;
* `toNat_divide` : the quotient.
-/
import Mathlib.Algebra.Order.Ring.Nat
import Mathlib.Data.Nat.Bitwise
import Mathlib.Data.Nat.Size
import Mathlib.Tactic.Ring

namespace BaseUint

/-- The value of the words `pn`. -/
def toNat : List UInt32 → ℕ
  | [] => 0
  | p :: pn => p.toNat + 2 ^ 32 * toNat pn

/-! ## The operators -/

/-- The loop of `operator+=`. -/
def addLoop : UInt64 → List UInt32 → List UInt32 → List UInt32
  | carry, p :: pn, b :: bn =>
    let n := carry + p.toUInt64 + b.toUInt64
    n.toUInt32 :: addLoop (n >>> 32) pn bn
  | _, _, _ => []

/-- `operator+=`. -/
def add (a b : List UInt32) : List UInt32 := addLoop 0 a b

/-- `operator++`. -/
def increment : List UInt32 → List UInt32
  | [] => []
  | p :: pn => if p + 1 = 0 then (p + 1) :: increment pn else (p + 1) :: pn

/-- `operator-()`. -/
def neg (a : List UInt32) : List UInt32 := increment (a.map (~~~ ·))

/-- `operator-=`. -/
def sub (a b : List UInt32) : List UInt32 := add a (neg b)

/-- The loop of `operator*=`, on a `uint32_t`. -/
def mulLoop (b32 : UInt32) : UInt64 → List UInt32 → List UInt32
  | _, [] => []
  | carry, p :: pn =>
    let n := carry + b32.toUInt64 * p.toUInt64
    n.toUInt32 :: mulLoop b32 (n >>> 32) pn

/-- `operator*=`, on a `uint32_t`. -/
def mul (a : List UInt32) (b32 : UInt32) : List UInt32 := mulLoop b32 0 a

/-- `operator<<=`. -/
def shiftLeft (a : List UInt32) (shift : ℕ) : List UInt32 :=
  let k := shift / 32
  let s := shift % 32
  (List.range a.length).map fun j =>
    (if k + 1 ≤ j ∧ s ≠ 0 then a.getD (j - k - 1) 0 >>> UInt32.ofNat (32 - s) else 0) |||
      if k ≤ j then a.getD (j - k) 0 <<< UInt32.ofNat s else 0

/-- `operator>>=`. -/
def shiftRight (a : List UInt32) (shift : ℕ) : List UInt32 :=
  let k := shift / 32
  let s := shift % 32
  (List.range a.length).map fun j =>
    (if j + k + 1 < a.length ∧ s ≠ 0 then a.getD (j + k + 1) 0 <<< UInt32.ofNat (32 - s) else 0) |||
      if j + k < a.length then a.getD (j + k) 0 >>> UInt32.ofNat s else 0

/-- `CompareTo`: the highest words come first. -/
def compareTo : List UInt32 → List UInt32 → Ordering
  | p :: pn, b :: bn => (compareTo pn bn).then (compare p b)
  | _, _ => .eq

/-- The inner loop of `bits`, from the bit `k` of a word that is not zero. -/
def bitsLoop (p : UInt32) : ℕ → ℕ
  | 0 => 1
  | k + 1 => if p &&& 1 <<< UInt32.ofNat (k + 1) ≠ 0 then k + 2 else bitsLoop p k

/-- `bits`: the highest words come first. -/
def bits : List UInt32 → ℕ
  | [] => 0
  | p :: pn => if bits pn ≠ 0 then 32 + bits pn else if p ≠ 0 then bitsLoop p 31 else 0

/-- `pn[shift / 32] |= (1 << (shift & 31))`. -/
def setBit (pn : List UInt32) (shift : ℕ) : List UInt32 :=
  pn.set (shift / 32) (pn.getD (shift / 32) 0 ||| 1 <<< UInt32.ofNat (shift % 32))

/-- The loop of `operator/=`, from `shift - 1` on, with `num`, `div` and the quotient. -/
def divideLoop : ℕ → List UInt32 → List UInt32 → List UInt32 → List UInt32
  | 0, _, _, quotient => quotient
  | shift + 1, num, div, quotient =>
    if compareTo num div ≠ .lt then
      divideLoop shift (sub num div) (shiftRight div 1) (setBit quotient shift)
    else divideLoop shift num (shiftRight div 1) quotient

/-- `operator/=`; nothing is returned for a division by zero. -/
def divide (a b : List UInt32) : Option (List UInt32) :=
  let zero := List.replicate a.length 0
  if bits b = 0 then none
  else if bits b > bits a then some zero
  else
    let shift := bits a - bits b
    some (divideLoop (shift + 1) a (shiftLeft b shift) zero)

/-! ## Words -/

theorem toNat_lt (a : List UInt32) : toNat a < 2 ^ (32 * a.length) := by
  induction a with
  | nil => exact Nat.one_pos
  | cons p pn ih =>
    have hp := p.toNat_lt
    rw [toNat, List.length_cons, Nat.mul_succ, pow_add]
    have hmul : 2 ^ 32 * (toNat pn + 1) ≤ 2 ^ 32 * 2 ^ (32 * pn.length) := Nat.mul_le_mul_left _ ih
    have hcomm : 2 ^ (32 * pn.length) * 2 ^ 32 = 2 ^ 32 * 2 ^ (32 * pn.length) := Nat.mul_comm _ _
    omega

theorem toNat_inj {a b : List UInt32} (hlen : a.length = b.length) (h : toNat a = toNat b) : a = b := by
  induction a generalizing b with
  | nil => exact (List.length_eq_zero_iff.mp hlen.symm).symm
  | cons p pn ih =>
    cases b with
    | nil => cases hlen
    | cons q qn =>
      have hp := p.toNat_lt
      have hq := q.toNat_lt
      simp only [toNat] at h
      have hhead : p = q := UInt32.toNat_inj.mp (by omega)
      rw [hhead, ih (Nat.succ.inj hlen) (by omega)]

theorem toNat_replicate_zero (k : ℕ) : toNat (List.replicate k 0) = 0 := by
  induction k with
  | zero => rfl
  | succ k ih =>
    rw [List.replicate_succ, toNat, ih]
    rfl

/-- A digit and what is carried. -/
theorem mod_add_mul_mod (n y k : ℕ) : n % 2 ^ 32 + 2 ^ 32 * ((n / 2 ^ 32 + y) % 2 ^ (32 * k)) =
    (n + 2 ^ 32 * y) % 2 ^ (32 * (k + 1)) := by
  rw [Nat.mul_succ, Nat.pow_add, Nat.mul_comm (2 ^ (32 * k)), Nat.mod_mul,
    Nat.add_mul_mod_self_left, Nat.add_mul_div_left _ _ (Nat.two_pow_pos 32)]

/-! ## Sums and products -/

theorem length_addLoop (carry : UInt64) (a b : List UInt32) (hlen : a.length = b.length) :
    (addLoop carry a b).length = a.length := by
  induction a generalizing carry b with
  | nil => rfl
  | cons p pn ih =>
    cases b with
    | nil => cases hlen
    | cons q qn => rw [addLoop, List.length_cons, ih _ _ (Nat.succ.inj hlen), List.length_cons]

theorem toNat_addLoop (carry : UInt64) (a b : List UInt32) (hlen : a.length = b.length)
    (hcarry : carry.toNat < 2 ^ 32) :
    toNat (addLoop carry a b) = (carry.toNat + toNat a + toNat b) % 2 ^ (32 * a.length) := by
  induction a generalizing carry b with
  | nil =>
    rw [List.length_nil, Nat.mul_zero, Nat.pow_zero, Nat.mod_one]
    rfl
  | cons p pn ih =>
    cases b with
    | nil => cases hlen
    | cons q qn =>
      have hp := p.toNat_lt
      have hq := q.toNat_lt
      have hn : (carry + p.toUInt64 + q.toUInt64).toNat = carry.toNat + p.toNat + q.toNat := by
        rw [UInt64.toNat_add, UInt64.toNat_add, UInt32.toNat_toUInt64, UInt32.toNat_toUInt64]
        omega
      have hshift : ((carry + p.toUInt64 + q.toUInt64) >>> 32).toNat =
          (carry.toNat + p.toNat + q.toNat) / 2 ^ 32 := by
        rw [UInt64.toNat_shiftRight, hn, Nat.shiftRight_eq_div_pow]
        rfl
      rw [addLoop, toNat, ih _ _ (Nat.succ.inj hlen) (by rw [hshift]; omega), hshift,
        UInt64.toNat_toUInt32, hn, add_assoc (_ / _), mod_add_mul_mod, List.length_cons]
      congr 1
      simp only [toNat]
      ring

theorem toNat_add {a b : List UInt32} (hlen : a.length = b.length) :
    toNat (add a b) = (toNat a + toNat b) % 2 ^ (32 * a.length) := by
  rw [add, toNat_addLoop 0 a b hlen (Nat.two_pow_pos 32)]
  simp

theorem length_increment (a : List UInt32) : (increment a).length = a.length := by
  induction a with
  | nil => rfl
  | cons p pn ih =>
    rw [increment]
    split_ifs
    · rw [List.length_cons, ih, List.length_cons]
    · rfl

theorem toNat_increment (a : List UInt32) :
    toNat (increment a) = (toNat a + 1) % 2 ^ (32 * a.length) := by
  induction a with
  | nil => rfl
  | cons p pn ih =>
    have hp := p.toNat_lt
    have hone : (p + 1).toNat = (p.toNat + 1) % 2 ^ 32 := UInt32.toNat_add p 1
    rw [increment]
    split_ifs with hzero
    · -- the word wraps around, and one is carried
      have hsum : toNat (p :: pn) + 1 = 2 ^ 32 + 2 ^ 32 * toNat pn := by
        have hz := congrArg UInt32.toNat hzero
        rw [hone, UInt32.toNat_zero] at hz
        rw [toNat]
        omega
      have hcarry := mod_add_mul_mod (2 ^ 32) (toNat pn) pn.length
      rw [Nat.mod_self, Nat.div_self (Nat.two_pow_pos 32)] at hcarry
      rw [toNat, hzero, ih, hsum, List.length_cons, ← hcarry, Nat.add_comm (toNat pn)]
      rfl
    · have hne : p.toNat + 1 ≠ 2 ^ 32 := by
        intro h
        apply hzero
        apply UInt32.toNat_inj.mp
        rw [hone, h]
        rfl
      have hsum : toNat ((p + 1) :: pn) = toNat (p :: pn) + 1 := by
        rw [toNat, hone, Nat.mod_eq_of_lt (by omega), toNat]
        omega
      have hlt := toNat_lt ((p + 1) :: pn)
      rw [hsum, List.length_cons] at hlt
      rw [hsum, List.length_cons, Nat.mod_eq_of_lt hlt]

theorem length_neg (a : List UInt32) : (neg a).length = a.length := by
  rw [neg, length_increment, List.length_map]

theorem toNat_complement (a : List UInt32) :
    toNat (a.map (~~~ ·)) + toNat a + 1 = 2 ^ (32 * a.length) := by
  induction a with
  | nil => rfl
  | cons p pn ih =>
    have hp := p.toNat_lt
    have hnot : (~~~p).toNat = 2 ^ 32 - 1 - p.toNat := UInt32.toNat_not p
    rw [List.map_cons, toNat, toNat, hnot, List.length_cons, Nat.mul_succ, pow_add, ← ih]
    omega

theorem toNat_neg (a : List UInt32) : toNat (neg a) = (2 ^ (32 * a.length) - toNat a) %
    2 ^ (32 * a.length) := by
  have hsum := toNat_complement a
  rw [neg, toNat_increment, List.length_map]
  congr 1
  omega

theorem length_sub (a b : List UInt32) (hlen : a.length = b.length) :
    (sub a b).length = a.length :=
  length_addLoop 0 a (neg b) (by rw [length_neg, hlen])

theorem toNat_sub {a b : List UInt32} (hlen : a.length = b.length) (hle : toNat b ≤ toNat a) :
    toNat (sub a b) = toNat a - toNat b := by
  have hlt := toNat_lt a
  rw [sub, toNat_add (by rw [length_neg, hlen]), toNat_neg, ← hlen, Nat.add_mod_mod,
    show toNat a + (2 ^ (32 * a.length) - toNat b) = toNat a - toNat b + 2 ^ (32 * a.length) from by
      omega, Nat.add_mod_right, Nat.mod_eq_of_lt (by omega)]

theorem length_mulLoop (b32 : UInt32) (carry : UInt64) (a : List UInt32) :
    (mulLoop b32 carry a).length = a.length := by
  induction a generalizing carry with
  | nil => rfl
  | cons p pn ih => rw [mulLoop, List.length_cons, ih, List.length_cons]

theorem toNat_mulLoop (b32 : UInt32) (carry : UInt64) (a : List UInt32) (hcarry : carry.toNat < 2 ^ 32) :
    toNat (mulLoop b32 carry a) = (carry.toNat + b32.toNat * toNat a) % 2 ^ (32 * a.length) := by
  induction a generalizing carry with
  | nil =>
    rw [List.length_nil, Nat.mul_zero, Nat.pow_zero, Nat.mod_one]
    rfl
  | cons p pn ih =>
    have hp := p.toNat_lt
    have hb := b32.toNat_lt
    have hprod : b32.toNat * p.toNat ≤ (2 ^ 32 - 1) * (2 ^ 32 - 1) :=
      Nat.mul_le_mul (by omega) (by omega)
    have hn : (carry + b32.toUInt64 * p.toUInt64).toNat = carry.toNat + b32.toNat * p.toNat := by
      rw [UInt64.toNat_add, UInt64.toNat_mul, UInt32.toNat_toUInt64, UInt32.toNat_toUInt64]
      omega
    have hshift : ((carry + b32.toUInt64 * p.toUInt64) >>> 32).toNat =
        (carry.toNat + b32.toNat * p.toNat) / 2 ^ 32 := by
      rw [UInt64.toNat_shiftRight, hn, Nat.shiftRight_eq_div_pow]
      rfl
    rw [mulLoop, toNat, ih _ (by rw [hshift]; omega), hshift, UInt64.toNat_toUInt32, hn,
      mod_add_mul_mod, List.length_cons]
    congr 1
    simp only [toNat]
    ring

theorem toNat_mul (a : List UInt32) (b32 : UInt32) :
    toNat (mul a b32) = toNat a * b32.toNat % 2 ^ (32 * a.length) := by
  rw [mul, toNat_mulLoop b32 0 a (Nat.two_pow_pos 32), Nat.mul_comm (toNat a)]
  simp

/-! ## Comparison -/

theorem compare_word (p q : UInt32) : compare p q = compare p.toNat q.toNat := by
  show compareOfLessAndEq p q = compareOfLessAndEq p.toNat q.toNat
  simp only [compareOfLessAndEq, UInt32.lt_iff_toNat_lt, UInt32.toNat_inj]

theorem compareTo_eq {a b : List UInt32} (hlen : a.length = b.length) :
    compareTo a b = compare (toNat a) (toNat b) := by
  induction a generalizing b with
  | nil =>
    obtain rfl := List.length_eq_zero_iff.mp hlen.symm
    rfl
  | cons p pn ih =>
    cases b with
    | nil => cases hlen
    | cons q qn =>
      have hp := p.toNat_lt
      have hq := q.toNat_lt
      rw [compareTo, ih (Nat.succ.inj hlen), toNat, toNat, compare_word]
      rcases lt_trichotomy (toNat pn) (toNat qn) with hlt | heq | hgt
      · have hless : p.toNat + 2 ^ 32 * toNat pn < q.toNat + 2 ^ 32 * toNat qn := by omega
        rw [Nat.compare_eq_lt.mpr hlt, Nat.compare_eq_lt.mpr hless]
        rfl
      · rw [heq, Nat.compare_eq_eq.mpr rfl, Ordering.then]
        rcases lt_trichotomy p.toNat q.toNat with hlt | heq | hgt
        · rw [Nat.compare_eq_lt.mpr hlt, Nat.compare_eq_lt.mpr (by omega)]
        · rw [heq, Nat.compare_eq_eq.mpr rfl, Nat.compare_eq_eq.mpr rfl]
        · rw [Nat.compare_eq_gt.mpr hgt, Nat.compare_eq_gt.mpr (by omega)]
      · have hmore : q.toNat + 2 ^ 32 * toNat qn < p.toNat + 2 ^ 32 * toNat pn := by omega
        rw [Nat.compare_eq_gt.mpr hgt, Nat.compare_eq_gt.mpr hmore]
        rfl

/-! ## Bits -/

/-- The bits of a number are those of its words. -/
theorem testBit_toNat (a : List UInt32) (i : ℕ) :
    (toNat a).testBit i = (a.getD (i / 32) 0).toNat.testBit (i % 32) := by
  induction a generalizing i with
  | nil => simp [toNat]
  | cons p pn ih =>
    rw [toNat, Nat.add_comm, Nat.testBit_two_pow_mul_add _ p.toNat_lt]
    split_ifs with hlt
    · rw [Nat.div_eq_of_lt hlt, Nat.mod_eq_of_lt hlt]
      rfl
    · rw [ih, show i / 32 = (i - 32) / 32 + 1 from by omega, show i % 32 = (i - 32) % 32 from by omega]
      rfl

theorem length_shiftLeft (a : List UInt32) (shift : ℕ) : (shiftLeft a shift).length = a.length := by
  rw [shiftLeft, List.length_map, List.length_range]

theorem length_shiftRight (a : List UInt32) (shift : ℕ) : (shiftRight a shift).length = a.length := by
  rw [shiftRight, List.length_map, List.length_range]

theorem toNat_shiftWord {s : ℕ} (h : s < 32) : (UInt32.ofNat s).toNat % 32 = s := by
  have hlt : s < UInt32.size := lt_trans h (by decide)
  rw [UInt32.toNat_ofNat_of_lt' hlt, Nat.mod_eq_of_lt h]

theorem testBit_word_shiftRight (p : UInt32) {s : ℕ} (hs : s < 32) (r : ℕ) :
    (p >>> UInt32.ofNat s).toNat.testBit r = p.toNat.testBit (s + r) := by
  rw [UInt32.toNat_shiftRight, toNat_shiftWord hs, Nat.testBit_shiftRight]

theorem testBit_word_shiftLeft (p : UInt32) {s r : ℕ} (hs : s < 32) (hr : r < 32) :
    (p <<< UInt32.ofNat s).toNat.testBit r = (decide (s ≤ r) && p.toNat.testBit (r - s)) := by
  rw [UInt32.toNat_shiftLeft, toNat_shiftWord hs, Nat.testBit_mod_two_pow, Nat.testBit_shiftLeft]
  simp [hr]

theorem testBit_word_of_le (p : UInt32) {r : ℕ} (hr : 32 ≤ r) : p.toNat.testBit r = false :=
  Nat.testBit_lt_two_pow (lt_of_lt_of_le p.toNat_lt (Nat.pow_le_pow_right (by decide) hr))

theorem getD_of_length_le {a : List UInt32} {i : ℕ} (h : a.length ≤ i) : a.getD i 0 = 0 := by
  rw [List.getD_eq_getElem?_getD, List.getElem?_eq_none h]
  rfl

/-- The bits of the words that a function of the index gives. -/
theorem testBit_toNat_map {f : ℕ → UInt32} {w i : ℕ} (hi : i < 32 * w) :
    (toNat ((List.range w).map f)).testBit i = (f (i / 32)).toNat.testBit (i % 32) := by
  have hw : i / 32 < w := by omega
  rw [testBit_toNat, List.getD_eq_getElem?_getD, List.getElem?_map, List.getElem?_range hw]
  rfl

theorem testBit_toNat_of_le {a : List UInt32} {i : ℕ} (hi : 32 * a.length ≤ i) :
    (toNat a).testBit i = false :=
  Nat.testBit_lt_two_pow (lt_of_lt_of_le (toNat_lt a) (Nat.pow_le_pow_right (by decide) hi))

theorem toNat_shiftLeft (a : List UInt32) (shift : ℕ) :
    toNat (shiftLeft a shift) = toNat a <<< shift % 2 ^ (32 * a.length) := by
  apply Nat.eq_of_testBit_eq
  intro i
  rw [Nat.testBit_mod_two_pow, Nat.testBit_shiftLeft]
  by_cases hi : i < 32 * a.length
  · have hr : i % 32 < 32 := Nat.mod_lt _ (by decide)
    have hs : shift % 32 < 32 := Nat.mod_lt _ (by decide)
    rw [shiftLeft, testBit_toNat_map hi, testBit_toNat, UInt32.toNat_or, Nat.testBit_or,
      decide_eq_true hi, Bool.true_and]
    by_cases hge : i ≥ shift
    · rw [decide_eq_true hge, Bool.true_and]
      by_cases hlow : i % 32 < shift % 32
      · -- the bit comes from the word below
        rw [if_pos ⟨by omega, by omega⟩, if_pos (by omega),
          testBit_word_shiftRight _ (by omega), testBit_word_shiftLeft _ hs hr,
          decide_eq_false (by omega), Bool.false_and, Bool.or_false,
          show (i - shift) / 32 = i / 32 - shift / 32 - 1 from by omega,
          show (i - shift) % 32 = 32 - shift % 32 + i % 32 from by omega]
      · have hfirst : (if shift / 32 + 1 ≤ i / 32 ∧ shift % 32 ≠ 0 then
            a.getD (i / 32 - shift / 32 - 1) 0 >>> UInt32.ofNat (32 - shift % 32)
            else 0).toNat.testBit (i % 32) = false := by
          split_ifs with hc
          · rw [testBit_word_shiftRight _ (by omega)]
            exact testBit_word_of_le _ (by omega)
          · rw [UInt32.toNat_zero, Nat.zero_testBit]
        rw [hfirst, Bool.false_or, if_pos (by omega), testBit_word_shiftLeft _ hs hr,
          decide_eq_true (by omega), Bool.true_and,
          show (i - shift) / 32 = i / 32 - shift / 32 from by omega,
          show (i - shift) % 32 = i % 32 - shift % 32 from by omega]
    · rw [decide_eq_false hge, Bool.false_and, if_neg (by omega), UInt32.toNat_zero,
        Nat.zero_testBit, Bool.false_or]
      split_ifs with hc
      · rw [testBit_word_shiftLeft _ hs hr, decide_eq_false (by omega), Bool.false_and]
      · rw [UInt32.toNat_zero, Nat.zero_testBit]
  · rw [testBit_toNat_of_le (by rw [length_shiftLeft]; omega)]
    simp [hi]

theorem toNat_shiftRight (a : List UInt32) (shift : ℕ) :
    toNat (shiftRight a shift) = toNat a >>> shift := by
  apply Nat.eq_of_testBit_eq
  intro i
  rw [Nat.testBit_shiftRight]
  by_cases hi : i < 32 * a.length
  · have hr : i % 32 < 32 := Nat.mod_lt _ (by decide)
    have hs : shift % 32 < 32 := Nat.mod_lt _ (by decide)
    rw [shiftRight, testBit_toNat_map hi, testBit_toNat, UInt32.toNat_or, Nat.testBit_or]
    by_cases hlow : i % 32 + shift % 32 < 32
    · have hfirst : (if i / 32 + shift / 32 + 1 < a.length ∧ shift % 32 ≠ 0 then
          a.getD (i / 32 + shift / 32 + 1) 0 <<< UInt32.ofNat (32 - shift % 32)
          else 0).toNat.testBit (i % 32) = false := by
        split_ifs with hc
        · rw [testBit_word_shiftLeft _ (by omega) hr, decide_eq_false (by omega), Bool.false_and]
        · rw [UInt32.toNat_zero, Nat.zero_testBit]
      rw [hfirst, Bool.false_or, show (shift + i) / 32 = i / 32 + shift / 32 from by omega,
        show (shift + i) % 32 = shift % 32 + i % 32 from by omega]
      split_ifs with hc
      · rw [testBit_word_shiftRight _ hs]
      · rw [getD_of_length_le (by omega), UInt32.toNat_zero, Nat.zero_testBit, Nat.zero_testBit]
    · -- the bit comes from the word above
      have hsecond : (if i / 32 + shift / 32 < a.length then
          a.getD (i / 32 + shift / 32) 0 >>> UInt32.ofNat (shift % 32)
          else 0).toNat.testBit (i % 32) = false := by
        split_ifs with hc
        · rw [testBit_word_shiftRight _ hs]
          exact testBit_word_of_le _ (by omega)
        · rw [UInt32.toNat_zero, Nat.zero_testBit]
      rw [hsecond, Bool.or_false, show (shift + i) / 32 = i / 32 + shift / 32 + 1 from by omega,
        show (shift + i) % 32 = i % 32 - (32 - shift % 32) from by omega]
      split_ifs with hc
      · rw [testBit_word_shiftLeft _ (by omega) hr, decide_eq_true (by omega), Bool.true_and]
      · rw [getD_of_length_le (by omega), UInt32.toNat_zero, Nat.zero_testBit, Nat.zero_testBit]
  · rw [testBit_toNat_of_le (by rw [length_shiftRight]; omega), testBit_toNat_of_le (by omega)]

theorem toNat_one_shiftLeft {k : ℕ} (hk : k < 32) : (1 <<< UInt32.ofNat k : UInt32).toNat = 2 ^ k := by
  rw [UInt32.toNat_shiftLeft, toNat_shiftWord hk, UInt32.toNat_one, Nat.one_shiftLeft,
    Nat.mod_eq_of_lt (Nat.pow_lt_pow_right (by decide) hk)]

theorem and_one_shiftLeft_ne_zero {p : UInt32} {k : ℕ} (hk : k < 32) :
    p &&& 1 <<< UInt32.ofNat k ≠ 0 ↔ p.toNat.testBit k = true := by
  rw [Ne, ← UInt32.toNat_inj, UInt32.toNat_and, toNat_one_shiftLeft hk, Nat.and_two_pow,
    UInt32.toNat_zero]
  cases p.toNat.testBit k with
  | false => simp
  | true => simp

theorem size_eq_succ {n k : ℕ} (hlow : 2 ^ k ≤ n) (hhigh : n < 2 ^ (k + 1)) : n.size = k + 1 :=
  le_antisymm (Nat.size_le.mpr hhigh) (Nat.lt_size.mpr hlow)

theorem bitsLoop_eq {p : UInt32} {k : ℕ} (hk : k < 32) (hp : p ≠ 0) (hlt : p.toNat < 2 ^ (k + 1)) :
    bitsLoop p k = p.toNat.size := by
  induction k with
  | zero =>
    have hne : p.toNat ≠ 0 := fun h => hp (UInt32.toNat_inj.mp h)
    rw [bitsLoop, size_eq_succ (k := 0) (by omega) hlt]
  | succ k ih =>
    rw [bitsLoop]
    split_ifs with hbit
    · rw [size_eq_succ (Nat.ge_two_pow_of_testBit ((and_one_shiftLeft_ne_zero hk).mp hbit)) hlt]
    · apply ih (by omega)
      have hfalse : p.toNat.testBit (k + 1) = false := by
        rw [← Bool.not_eq_true]
        exact fun h => hbit ((and_one_shiftLeft_ne_zero hk).mpr h)
      rw [Nat.testBit_eq_decide_div_mod_eq, decide_eq_false_iff_not] at hfalse
      have hquot : p.toNat / 2 ^ (k + 1) < 2 := by
        rw [Nat.div_lt_iff_lt_mul (Nat.two_pow_pos _), Nat.mul_comm, ← Nat.pow_succ]
        exact hlt
      apply (Nat.div_eq_zero_iff_lt (Nat.two_pow_pos _)).mp
      generalize p.toNat / 2 ^ (k + 1) = quot at hfalse hquot
      omega

/-- **The number of bits.** -/
theorem bits_eq (a : List UInt32) : bits a = (toNat a).size := by
  induction a with
  | nil => rfl
  | cons p pn ih =>
    have hp := p.toNat_lt
    rw [bits, ih, toNat]
    by_cases hzero : toNat pn = 0
    · rw [hzero, Nat.size_zero, if_neg (not_not.mpr rfl), Nat.mul_zero, Nat.add_zero]
      split_ifs with hword
      · exact bitsLoop_eq (by decide) hword hp
      · rw [not_not.mp hword]
        rfl
    · have hsize : (toNat pn).size ≠ 0 := fun h => hzero (Nat.size_eq_zero.mp h)
      have hlow := Nat.lt_size.mp (Nat.sub_one_lt hsize)
      have hhigh := Nat.lt_size_self (toNat pn)
      rw [if_pos hsize, show 32 + (toNat pn).size = 31 + (toNat pn).size + 1 from by omega]
      refine (size_eq_succ ?_ ?_).symm
      · rw [show 31 + (toNat pn).size = 32 + ((toNat pn).size - 1) from by omega, pow_add]
        have := Nat.mul_le_mul_left (2 ^ 32) hlow
        omega
      · rw [show 31 + (toNat pn).size + 1 = 32 + (toNat pn).size from by omega, pow_add]
        have := Nat.mul_le_mul_left (2 ^ 32) hhigh
        rw [Nat.mul_succ] at this
        omega

/-! ## Quotients -/

theorem length_setBit (a : List UInt32) (k : ℕ) : (setBit a k).length = a.length :=
  List.length_set

/-- A bit that is not set is added. -/
theorem toNat_setBit {a : List UInt32} {k m : ℕ} (hk : k < 32 * a.length)
    (ha : toNat a = 2 ^ (k + 1) * m) : toNat (setBit a k) = toNat a + 2 ^ k := by
  have hlt : 2 ^ k < 2 ^ (k + 1) := Nat.pow_lt_pow_right (by decide) (Nat.lt_succ_self k)
  have hor : toNat a + 2 ^ k = toNat a ||| 2 ^ k := by
    rw [ha]
    exact Nat.two_pow_add_eq_or_of_lt hlt m
  rw [hor]
  apply Nat.eq_of_testBit_eq
  intro i
  rw [Nat.testBit_or, Nat.testBit_two_pow, testBit_toNat, testBit_toNat, setBit]
  by_cases hword : k / 32 = i / 32
  · have hin : i / 32 < a.length := by omega
    rw [hword, List.getD_eq_getElem?_getD, List.getElem?_set_self hin, Option.getD_some,
      UInt32.toNat_or, Nat.testBit_or, toNat_one_shiftLeft (Nat.mod_lt _ (by decide)),
      Nat.testBit_two_pow]
    congr 2
    rw [eq_iff_iff]
    omega
  · rw [List.getD_eq_getElem?_getD, List.getElem?_set_ne hword, ← List.getD_eq_getElem?_getD,
      decide_eq_false (by omega), Bool.or_false]

theorem length_divideLoop (n : ℕ) (num div quotient : List UInt32) :
    (divideLoop n num div quotient).length = quotient.length := by
  induction n generalizing num div quotient with
  | zero => rfl
  | succ n ih =>
    rw [divideLoop]
    split_ifs
    · rw [ih, length_setBit]
    · exact ih _ _ _

theorem length_divide {a b q : List UInt32} (h : divide a b = some q) : q.length = a.length := by
  unfold divide at h
  simp only at h
  split_ifs at h
  · rw [← Option.some.inj h, List.length_replicate]
  · rw [← Option.some.inj h, length_divideLoop, List.length_replicate]

/-- **The loop of the division.**  In the round `n` the divisor is `2 ^ (n - 1)` times `b`, and what
is left of the number is below twice that. -/
theorem divideLoop_spec {b : ℕ} {num div quotient : List UInt32} {n a : ℕ}
    (hnum : num.length = quotient.length) (hdiv : div.length = quotient.length)
    (hlen : n ≤ 32 * quotient.length) (hshift : ∀ k, n = k + 1 → toNat div = b * 2 ^ k)
    (hlt : toNat num < b * 2 ^ n) (hq : ∃ m, toNat quotient = 2 ^ n * m)
    (ha : a = toNat quotient * b + toNat num) :
    toNat (divideLoop n num div quotient) = a / b := by
  induction n generalizing num div quotient with
  | zero =>
    rw [Nat.pow_zero, Nat.mul_one] at hlt
    rw [divideLoop, ha, Nat.mul_comm, Nat.mul_add_div (Nat.pos_of_ne_zero (by omega)),
      Nat.div_eq_of_lt hlt, Nat.add_zero]
  | succ n ih =>
    obtain ⟨m, hm⟩ := hq
    have hdivNat := hshift n rfl
    have hhalf : ∀ k, n = k + 1 → toNat (shiftRight div 1) = b * 2 ^ k := by
      rintro k rfl
      rw [toNat_shiftRight, hdivNat, Nat.shiftRight_eq_div_pow, Nat.pow_succ, ← Nat.mul_assoc]
      exact Nat.mul_div_cancel _ (by decide)
    have hdouble : b * 2 ^ (n + 1) = 2 * (b * 2 ^ n) := by
      rw [Nat.pow_succ]
      ring
    rw [divideLoop, compareTo_eq (hnum.trans hdiv.symm)]
    by_cases hge : toNat div ≤ toNat num
    · have hset := toNat_setBit (by omega) hm
      have hsub := toNat_sub (hnum.trans hdiv.symm) hge
      rw [if_pos (by rw [Ne, Nat.compare_eq_lt]; omega)]
      have hnum' : (sub num div).length = (setBit quotient n).length := by
        rw [length_sub _ _ (hnum.trans hdiv.symm), length_setBit, hnum]
      have hdiv' : (shiftRight div 1).length = (setBit quotient n).length := by
        rw [length_shiftRight, length_setBit, hdiv]
      have ha' : a = toNat (setBit quotient n) * b + toNat (sub num div) := by
        rw [ha, hset, hsub, Nat.add_mul, Nat.mul_comm (2 ^ n) b]
        omega
      exact ih hnum' hdiv' (by rw [length_setBit]; omega) hhalf (by rw [hsub]; omega)
        ⟨2 * m + 1, by rw [hset, hm, Nat.pow_succ]; ring⟩ ha'
    · rw [if_neg (by rw [Ne, not_not, Nat.compare_eq_lt]; omega)]
      exact ih hnum (by rw [length_shiftRight, hdiv]) (by omega) hhalf (by omega)
        ⟨2 * m, by rw [hm, Nat.pow_succ]; ring⟩ ha

/-- **The quotient.** -/
theorem divide_eq {a b : List UInt32} (hlen : a.length = b.length) (hb : toNat b ≠ 0) :
    ∃ q, divide a b = some q ∧ toNat q = toNat a / toNat b := by
  have hsize : (toNat b).size ≠ 0 := fun h => hb (Nat.size_eq_zero.mp h)
  have hlow := Nat.lt_size.mp (Nat.sub_one_lt hsize)
  have hhigh := Nat.lt_size_self (toNat a)
  rw [divide, bits_eq, bits_eq]
  simp only
  rw [if_neg hsize]
  split_ifs with hmore
  · refine ⟨_, rfl, ?_⟩
    have hless : toNat a < toNat b := lt_of_lt_of_le hhigh
      (le_trans (Nat.pow_le_pow_right (by decide) (by omega)) hlow)
    rw [toNat_replicate_zero, Nat.div_eq_of_lt hless]
  · have hwidth : (toNat a).size ≤ 32 * a.length := Nat.size_le.mpr (toNat_lt a)
    have hfit : toNat b * 2 ^ ((toNat a).size - (toNat b).size) < 2 ^ (32 * a.length) := by
      calc toNat b * 2 ^ ((toNat a).size - (toNat b).size)
          < 2 ^ (toNat b).size * 2 ^ ((toNat a).size - (toNat b).size) :=
            Nat.mul_lt_mul_of_pos_right (Nat.lt_size_self _) (Nat.two_pow_pos _)
        _ = 2 ^ (toNat a).size := by rw [← pow_add]; congr 1; omega
        _ ≤ 2 ^ (32 * a.length) := Nat.pow_le_pow_right (by decide) hwidth
    have hdiv : toNat (shiftLeft b ((toNat a).size - (toNat b).size)) =
        toNat b * 2 ^ ((toNat a).size - (toNat b).size) := by
      rw [toNat_shiftLeft, Nat.shiftLeft_eq, ← hlen, Nat.mod_eq_of_lt hfit]
    have hbelow : toNat a < toNat b * 2 ^ ((toNat a).size - (toNat b).size + 1) := by
      calc toNat a < 2 ^ (toNat a).size := hhigh
        _ = 2 ^ ((toNat b).size - 1) * 2 ^ ((toNat a).size - (toNat b).size + 1) := by
            rw [← pow_add]
            congr 1
            omega
        _ ≤ toNat b * 2 ^ ((toNat a).size - (toNat b).size + 1) := Nat.mul_le_mul_right _ hlow
    have hnum : a.length = (List.replicate a.length (0 : UInt32)).length :=
      (List.length_replicate ..).symm
    have hlen' : (shiftLeft b ((toNat a).size - (toNat b).size)).length =
        (List.replicate a.length (0 : UInt32)).length := by
      rw [length_shiftLeft, List.length_replicate, hlen]
    have ha : toNat a = toNat (List.replicate a.length 0) * toNat b + toNat a := by
      rw [toNat_replicate_zero, Nat.zero_mul, Nat.zero_add]
    exact ⟨_, rfl, divideLoop_spec hnum hlen' (by rw [List.length_replicate]; omega)
      (by rintro k hk; rw [hdiv, Nat.succ.inj hk]) hbelow ⟨0, toNat_replicate_zero _⟩ ha⟩

end BaseUint
