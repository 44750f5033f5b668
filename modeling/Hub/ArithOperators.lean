/-
# The operators of big integers

The product of two numbers, the predecessor and the comparison with a `uint64_t` of `base_uint`
(`libs/server/arith_uint256.h`, `arith_uint256.cpp`), and all operators of `arith_uint256` together.

The right operand of a compound operator is a reference, which may be the object itself.  `operator+=`
reads a word before it writes it, and `operator-=` and `operator/=` work on copies; `operator*=` sets the
object to zero before it reads the right operand.

* `BaseUint.toNat_mulAssign` : the schoolbook product, truncated;
* `ArithUint256.computes_iff` : when all operators compute modulo `2 ^ 256`.
-/
import Hub.ArithUint256

namespace BaseUint

/-! ## The code -/

/-- The right operand of a compound operator: the object itself, or another one with its words. -/
inductive Operand where
  | itself
  | other (b : List UInt32)
  deriving DecidableEq, Repr

/-- `b.pn`, when the object holds `pn`. -/
def Operand.words (pn : List UInt32) : Operand → List UInt32
  | itself => pn
  | other b => b

/-- The inner loop of `operator*=`, from the index `i` on. -/
def mulInner (aj : UInt32) (b : Operand) (j : ℕ) : ℕ → ℕ → UInt64 → List UInt32 → List UInt32
  | 0, _, _, pn => pn
  | rounds + 1, i, carry, pn =>
    let n := carry + (pn.getD (i + j) 0).toUInt64 +
      aj.toUInt64 * ((b.words pn).getD i 0).toUInt64
    mulInner aj b j rounds (i + 1) (n >>> 32) (pn.set (i + j) n.toUInt32)

/-- The outer loop of `operator*=`, from the index `j` on; `a` is the copy of the object. -/
def mulOuter (a : List UInt32) (b : Operand) : ℕ → ℕ → List UInt32 → List UInt32
  | 0, _, pn => pn
  | rounds + 1, j, pn =>
    mulOuter a b rounds (j + 1) (mulInner (a.getD j 0) b j (pn.length - j) 0 0 pn)

/-- `operator*=`, on a `base_uint`. -/
def mulAssign (a : List UInt32) (b : Operand) : List UInt32 :=
  mulOuter a b a.length 0 (List.replicate a.length 0)

/-- `operator--`. -/
def decrement : List UInt32 → List UInt32
  | [] => []
  | p :: pn => if p - 1 = 0xFFFFFFFF then (p - 1) :: decrement pn else (p - 1) :: pn

/-- `EqualTo`. -/
def equalTo (a : List UInt32) (b : UInt64) : Bool :=
  (a.drop 2).all (· == 0) && (a.getD 1 0).toUInt64 == b >>> 32 &&
    (a.getD 0 0).toUInt64 == b &&& 0xffffffff

/-! ## Parts of a number -/

theorem toNat_append (a b : List UInt32) :
    toNat (a ++ b) = toNat a + 2 ^ (32 * a.length) * toNat b := by
  induction a with
  | nil => rw [List.nil_append, toNat, List.length_nil, Nat.mul_zero, pow_zero]; omega
  | cons p pn ih =>
    rw [List.cons_append, toNat, ih, toNat, List.length_cons, Nat.mul_succ, pow_add]
    ring

theorem toNat_take_add_drop (a : List UInt32) {j : ℕ} (hj : j ≤ a.length) :
    toNat a = toNat (a.take j) + 2 ^ (32 * j) * toNat (a.drop j) := by
  have happend := toNat_append (a.take j) (a.drop j)
  rwa [List.take_append_drop, List.length_take_of_le hj] at happend

theorem toNat_take_succ (a : List UInt32) {j : ℕ} (hj : j < a.length) :
    toNat (a.take (j + 1)) = toNat (a.take j) + 2 ^ (32 * j) * (a.getD j 0).toNat := by
  rw [List.take_add_one, toNat_append, List.length_take_of_le (le_of_lt hj),
    List.getElem?_eq_getElem hj, List.getD_eq_getElem?_getD, List.getElem?_eq_getElem hj]
  rfl

/-! ## Products -/

/-- A row of the schoolbook product: `aj` times the second number is added to the first. -/
def mulRow (aj : UInt32) : UInt64 → List UInt32 → List UInt32 → List UInt32
  | carry, p :: pn, b :: bn =>
    let n := carry + p.toUInt64 + aj.toUInt64 * b.toUInt64
    n.toUInt32 :: mulRow aj (n >>> 32) pn bn
  | _, _, _ => []

/-- A word of a row: the sum does not overflow 64 bits. -/
theorem toNat_mulWord {carry : UInt64} (aj p b : UInt32) (hcarry : carry.toNat < 2 ^ 32) :
    (carry + p.toUInt64 + aj.toUInt64 * b.toUInt64).toNat =
      carry.toNat + p.toNat + aj.toNat * b.toNat := by
  have hp := p.toNat_lt
  have ha := aj.toNat_lt
  have hb := b.toNat_lt
  have hprod : aj.toNat * b.toNat ≤ (2 ^ 32 - 1) * (2 ^ 32 - 1) :=
    Nat.mul_le_mul (by omega) (by omega)
  rw [UInt64.toNat_add, UInt64.toNat_add, UInt64.toNat_mul, UInt32.toNat_toUInt64,
    UInt32.toNat_toUInt64, UInt32.toNat_toUInt64]
  omega

theorem toNat_mulRow (aj : UInt32) (carry : UInt64) {pn bn : List UInt32}
    (hlen : pn.length ≤ bn.length) (hcarry : carry.toNat < 2 ^ 32) :
    toNat (mulRow aj carry pn bn) =
      (carry.toNat + toNat pn + aj.toNat * toNat bn) % 2 ^ (32 * pn.length) := by
  induction pn generalizing carry bn with
  | nil =>
    rw [List.length_nil, Nat.mul_zero, Nat.pow_zero, Nat.mod_one]
    rfl
  | cons p pn ih =>
    cases bn with
    | nil => cases hlen
    | cons b bn =>
      have hn := toNat_mulWord aj p b hcarry
      have hlt := (carry + p.toUInt64 + aj.toUInt64 * b.toUInt64).toNat_lt
      have hshift : ((carry + p.toUInt64 + aj.toUInt64 * b.toUInt64) >>> 32).toNat =
          (carry.toNat + p.toNat + aj.toNat * b.toNat) / 2 ^ 32 := by
        rw [UInt64.toNat_shiftRight, hn, Nat.shiftRight_eq_div_pow]
        rfl
      rw [hn] at hlt
      rw [mulRow, toNat, ih _ (Nat.le_of_succ_le_succ hlen) (by rw [hshift]; omega), hshift,
        UInt64.toNat_toUInt32, hn, add_assoc (_ / _), mod_add_mul_mod, List.length_cons]
      congr 1
      simp only [toNat]
      ring

/-- **The inner loop** writes a row behind the words that it leaves alone. -/
theorem mulInner_other (aj : UInt32) (b : List UInt32) (j : ℕ) {rounds i : ℕ} (carry : UInt64)
    {pn : List UInt32} (hrounds : i + j + rounds = pn.length) (hlen : i + rounds ≤ b.length) :
    mulInner aj (.other b) j rounds i carry pn =
      pn.take (i + j) ++ mulRow aj carry (pn.drop (i + j)) (b.drop i) := by
  induction rounds generalizing i carry pn with
  | zero =>
    rw [mulInner, List.take_of_length_le (by omega), List.drop_of_length_le (by omega), mulRow]
    · rw [List.append_nil]
    · intro _ _ _ _ h
      cases h
  | succ rounds ih =>
    have hin : i + j < pn.length := by omega
    have hbn : i < b.length := by omega
    rw [mulInner]
    simp only [Operand.words]
    rw [ih _ (by rw [List.length_set]; omega) (by omega), List.drop_eq_getElem_cons hin,
      List.drop_eq_getElem_cons hbn, mulRow, show i + 1 + j = i + j + 1 from by omega,
      List.drop_set_of_lt (by omega), List.take_add_one, List.getElem?_set_self hin,
      List.take_set_of_le (le_refl _), List.getD_eq_getElem?_getD, List.getD_eq_getElem?_getD,
      List.getElem?_eq_getElem hin, List.getElem?_eq_getElem hbn, List.append_assoc]
    rfl

theorem add_mul_mod {t x k m : ℕ} (ht : t < 2 ^ k) :
    t + 2 ^ k * (x % 2 ^ m) = (t + 2 ^ k * x) % 2 ^ (k + m) := by
  rw [pow_add, Nat.mod_mul, Nat.add_mul_mod_self_left, Nat.mod_eq_of_lt ht,
    Nat.add_mul_div_left _ _ (Nat.two_pow_pos k), Nat.div_eq_of_lt ht, Nat.zero_add]

/-- A row is added at its place. -/
theorem toNat_row (aj : UInt32) {b pn : List UInt32} {j : ℕ} (hj : j ≤ pn.length)
    (hlen : pn.length ≤ b.length) :
    toNat (mulInner aj (.other b) j (pn.length - j) 0 0 pn) =
      (toNat pn + 2 ^ (32 * j) * (aj.toNat * toNat b)) % 2 ^ (32 * pn.length) := by
  have hlow := toNat_lt (pn.take j)
  rw [List.length_take_of_le hj] at hlow
  rw [mulInner_other aj b j 0 (by omega) (by omega), Nat.zero_add, List.drop_zero, toNat_append,
    List.length_take_of_le hj, toNat_mulRow aj 0 (by rw [List.length_drop]; omega) (by decide),
    List.length_drop, add_mul_mod hlow, toNat_take_add_drop pn hj,
    show 32 * j + 32 * (pn.length - j) = 32 * pn.length from by omega]
  congr 1
  rw [UInt64.toNat_zero]
  ring

theorem length_mulInner (aj : UInt32) (b : Operand) (j rounds i : ℕ) (carry : UInt64)
    (pn : List UInt32) : (mulInner aj b j rounds i carry pn).length = pn.length := by
  induction rounds generalizing i carry pn with
  | zero => rfl
  | succ rounds ih => rw [mulInner, ih, List.length_set]

theorem length_mulOuter (a : List UInt32) (b : Operand) (rounds j : ℕ) (pn : List UInt32) :
    (mulOuter a b rounds j pn).length = pn.length := by
  induction rounds generalizing j pn with
  | zero => rfl
  | succ rounds ih => rw [mulOuter, ih, length_mulInner]

theorem length_mulAssign (a : List UInt32) (b : Operand) : (mulAssign a b).length = a.length := by
  rw [mulAssign, length_mulOuter, List.length_replicate]

/-- **The outer loop**: before the round `j` the object holds the product with the `j` low words. -/
theorem toNat_mulOuter {a b pn : List UInt32} {rounds j : ℕ} (hrounds : j + rounds = a.length)
    (hpn : pn.length = a.length) (hb : b.length = a.length)
    (hvalue : toNat pn = toNat (a.take j) * toNat b % 2 ^ (32 * a.length)) :
    toNat (mulOuter a (.other b) rounds j pn) = toNat a * toNat b % 2 ^ (32 * a.length) := by
  induction rounds generalizing j pn with
  | zero =>
    rw [mulOuter, hvalue, List.take_of_length_le (by omega)]
  | succ rounds ih =>
    have hj : j < a.length := by omega
    rw [mulOuter]
    apply ih (by omega) (by rw [length_mulInner, hpn])
    rw [toNat_row _ (by omega) (by omega), hvalue, hpn, Nat.mod_add_mod, toNat_take_succ a hj]
    congr 1
    ring

/-- **The product** with another object. -/
theorem toNat_mulAssign {a b : List UInt32} (hlen : a.length = b.length) :
    toNat (mulAssign a (.other b)) = toNat a * toNat b % 2 ^ (32 * a.length) := by
  rw [mulAssign]
  apply toNat_mulOuter (Nat.zero_add _) List.length_replicate hlen.symm
  rw [toNat_replicate_zero, List.take_zero, toNat, Nat.zero_mul, Nat.zero_mod]

/-- Zeros stay, when the right operand is the object. -/
theorem mulInner_itself (aj : UInt32) (j rounds i k : ℕ) :
    mulInner aj .itself j rounds i 0 (List.replicate k 0) = List.replicate k 0 := by
  induction rounds generalizing i with
  | zero => rfl
  | succ rounds ih =>
    have hget : ∀ m, (List.replicate k (0 : UInt32)).getD m 0 = 0 := by
      intro m
      rw [List.getD_eq_getElem?_getD, List.getElem?_replicate]
      split_ifs
      · rfl
      · rfl
    have hword : (0 : UInt64) + (0 : UInt32).toUInt64 + aj.toUInt64 * (0 : UInt32).toUInt64 = 0 := by
      rw [show (0 : UInt32).toUInt64 = 0 from rfl, UInt64.mul_zero]
      rfl
    rw [mulInner]
    simp only [Operand.words, hget, hword]
    rw [show (0 : UInt64).toUInt32 = 0 from rfl, List.set_replicate_self]
    exact ih (i + 1)

/-- **The product with itself**, in place, is zero. -/
theorem mulAssign_itself (a : List UInt32) :
    mulAssign a .itself = List.replicate a.length 0 := by
  have houter : ∀ rounds j, mulOuter a .itself rounds j (List.replicate a.length 0) =
      List.replicate a.length 0 := by
    intro rounds
    induction rounds with
    | zero =>
      intro j
      rfl
    | succ rounds ih =>
      intro j
      rw [mulOuter, mulInner_itself]
      exact ih (j + 1)
  exact houter a.length 0

/-! ## Differences -/

theorem toNat_sub_mod {a b : List UInt32} (hlen : a.length = b.length) :
    toNat (sub a b) = (toNat a + (2 ^ (32 * a.length) - toNat b)) % 2 ^ (32 * a.length) := by
  rw [sub, toNat_add (by rw [length_neg, hlen]), toNat_neg, ← hlen, Nat.add_mod_mod]

theorem length_decrement (a : List UInt32) : (decrement a).length = a.length := by
  induction a with
  | nil => rfl
  | cons p pn ih =>
    rw [decrement]
    split_ifs
    · rw [List.length_cons, ih, List.length_cons]
    · rfl

theorem toNat_decrement (a : List UInt32) :
    toNat (decrement a) = (toNat a + (2 ^ (32 * a.length) - 1)) % 2 ^ (32 * a.length) := by
  induction a with
  | nil => rfl
  | cons p pn ih =>
    have hp := p.toNat_lt
    have hlt := toNat_lt pn
    have hsub : (p - 1).toNat = (p.toNat + (2 ^ 32 - 1)) % 2 ^ 32 := by
      rw [UInt32.toNat_sub, Nat.add_comm]
      rfl
    have hpow : 2 ^ (32 * (pn.length + 1)) = 2 ^ 32 * 2 ^ (32 * pn.length) := by
      rw [Nat.mul_succ, pow_add, Nat.mul_comm]
    have hpos : 1 ≤ 2 ^ (32 * pn.length) := Nat.one_le_two_pow
    rw [decrement, List.length_cons]
    split_ifs with hlast
    · -- the word wraps around, and one is borrowed
      have hzero : p.toNat = 0 := by
        rw [← UInt32.toNat_inj, hsub, show (0xFFFFFFFF : UInt32).toNat = 2 ^ 32 - 1 from rfl] at hlast
        omega
      have hborrow := mod_add_mul_mod (2 ^ 32 - 1) (toNat pn + (2 ^ (32 * pn.length) - 1)) pn.length
      rw [Nat.mod_eq_of_lt (by decide), Nat.div_eq_of_lt (by decide), Nat.zero_add] at hborrow
      have hsum : 2 ^ 32 - 1 + 2 ^ 32 * (toNat pn + (2 ^ (32 * pn.length) - 1)) =
          toNat (p :: pn) + (2 ^ (32 * (pn.length + 1)) - 1) := by
        rw [toNat, hzero, hpow]
        generalize 2 ^ (32 * pn.length) = width at hpos ⊢
        omega
      rw [toNat, ih, hlast, show (0xFFFFFFFF : UInt32).toNat = 2 ^ 32 - 1 from rfl, hborrow, hsum]
    · have hpos' : 1 ≤ p.toNat := by
        by_contra hzero
        apply hlast
        apply UInt32.toNat_inj.mp
        rw [hsub, show p.toNat = 0 from by omega]
        rfl
      have hless : (p - 1).toNat = p.toNat - 1 := by
        rw [hsub]
        omega
      rw [toNat, hless, toNat, hpow]
      generalize 2 ^ (32 * pn.length) = width at hpos hlt ⊢
      rw [show p.toNat + 2 ^ 32 * toNat pn + (2 ^ 32 * width - 1) =
        p.toNat - 1 + 2 ^ 32 * toNat pn + 2 ^ 32 * width from by omega, Nat.add_mod_right,
        Nat.mod_eq_of_lt (by omega)]

/-! ## Comparison with 64 bits -/

theorem all_eq_zero_iff (a : List UInt32) : a.all (· == 0) = true ↔ toNat a = 0 := by
  induction a with
  | nil => exact ⟨fun _ => rfl, fun _ => rfl⟩
  | cons p pn ih =>
    rw [List.all_cons, Bool.and_eq_true, ih, beq_iff_eq, ← UInt32.toNat_inj, UInt32.toNat_zero, toNat]
    omega

theorem equalTo_eq {a : List UInt32} (hlen : 2 ≤ a.length) (b : UInt64) :
    equalTo a b = decide (toNat a = b.toNat) := by
  obtain _ | ⟨p, _ | ⟨q, rest⟩⟩ := a
  · cases hlen
  · exact absurd hlen (by simp)
  · have hp := p.toNat_lt
    have hq := q.toNat_lt
    have hb := b.toNat_lt
    have hhigh : (b >>> 32).toNat = b.toNat / 2 ^ 32 := by
      rw [UInt64.toNat_shiftRight, Nat.shiftRight_eq_div_pow]
      rfl
    have hlow : (b &&& 0xffffffff).toNat = b.toNat % 2 ^ 32 := by
      rw [UInt64.toNat_and, show (0xffffffff : UInt64).toNat = 2 ^ 32 - 1 from rfl,
        Nat.and_two_pow_sub_one_eq_mod]
    rw [Bool.eq_iff_iff, decide_eq_true_iff, equalTo, Bool.and_eq_true, Bool.and_eq_true,
      List.drop_succ_cons, List.drop_succ_cons, List.drop_zero, all_eq_zero_iff,
      List.getD_cons_succ, List.getD_cons_zero, List.getD_cons_zero, beq_iff_eq, beq_iff_eq,
      ← UInt64.toNat_inj, ← UInt64.toNat_inj, hhigh, hlow, UInt32.toNat_toUInt64,
      UInt32.toNat_toUInt64, toNat, toNat]
    omega

end BaseUint

namespace ArithUint256

/-- The right operand of a compound operator: the object itself, or another one. -/
inductive Operand where
  | itself
  | other (b : ArithUint256)
  deriving DecidableEq

/-- The number that the operand stands for, when the object is `a`. -/
def Operand.value (a : ArithUint256) : Operand → ArithUint256
  | itself => a
  | other b => b

/-- The operand of the words. -/
def Operand.base : Operand → BaseUint.Operand
  | itself => .itself
  | other b => .other b.pn

/-- `operator+=`. -/
def addAssign (a : ArithUint256) (b : Operand) : ArithUint256 := a.add (b.value a)

/-- `operator-=`. -/
def subAssign (a : ArithUint256) (b : Operand) : ArithUint256 := a.sub (b.value a)

/-- `operator*=`, on a `base_uint`. -/
def mulAssign (a : ArithUint256) (b : Operand) : ArithUint256 where
  pn := BaseUint.mulAssign a.pn b.base
  width := (BaseUint.length_mulAssign a.pn b.base).trans a.width

/-- `operator/=`; nothing is returned for a division by zero. -/
def divAssign (a : ArithUint256) (b : Operand) : Option ArithUint256 := a.div (b.value a)

/-- `operator+=`, on a `uint64_t`. -/
def addAssign64 (a : ArithUint256) (b64 : UInt64) : ArithUint256 := a.add (ofUInt64 b64)

/-- `operator-=`, on a `uint64_t`. -/
def subAssign64 (a : ArithUint256) (b64 : UInt64) : ArithUint256 := a.sub (ofUInt64 b64)

/-- `operator*`: the left operand is copied, so that the right one is another object. -/
def times (a b : ArithUint256) : ArithUint256 := mulAssign a (.other b)

/-- `operator++`. -/
def increment (a : ArithUint256) : ArithUint256 where
  pn := BaseUint.increment a.pn
  width := (BaseUint.length_increment a.pn).trans a.width

/-- `operator--`. -/
def decrement (a : ArithUint256) : ArithUint256 where
  pn := BaseUint.decrement a.pn
  width := (BaseUint.length_decrement a.pn).trans a.width

/-- `CompareTo`. -/
def compareTo (a b : ArithUint256) : Ordering := BaseUint.compareTo a.pn b.pn

/-- `EqualTo`. -/
def equalTo (a : ArithUint256) (b : UInt64) : Bool := BaseUint.equalTo a.pn b

/-- `operator==`: the words are compared as memory. -/
def equal (a b : ArithUint256) : Bool := a.pn == b.pn

variable {a b : ArithUint256}

theorem toNat_mulAssign_other : (a.mulAssign (.other b)).toNat = a.toNat * b.toNat % 2 ^ 256 := by
  have hmul := BaseUint.toNat_mulAssign (a.width.trans b.width.symm)
  rwa [a.width] at hmul

theorem toNat_mulAssign_itself (a : ArithUint256) : (a.mulAssign .itself).toNat = 0 := by
  show BaseUint.toNat (BaseUint.mulAssign a.pn .itself) = 0
  rw [BaseUint.mulAssign_itself, BaseUint.toNat_replicate_zero]

theorem toNat_add_mod (a b : ArithUint256) : (a.add b).toNat = (a.toNat + b.toNat) % 2 ^ 256 := by
  have hadd := BaseUint.toNat_add (a.width.trans b.width.symm)
  rwa [a.width] at hadd

theorem toNat_sub_mod (a b : ArithUint256) :
    (a.sub b).toNat = (a.toNat + (2 ^ 256 - b.toNat)) % 2 ^ 256 := by
  have hsub := BaseUint.toNat_sub_mod (a.width.trans b.width.symm)
  rwa [a.width] at hsub

theorem equal_eq (a b : ArithUint256) : a.equal b = decide (a.toNat = b.toNat) := by
  rw [equal, Bool.eq_iff_iff, beq_iff_eq, decide_eq_true_iff]
  constructor
  · intro h
    rw [toNat, toNat, h]
  · intro h
    rw [toNat_inj h]

/-- The position of the highest bit. -/
theorem bits_eq_succ_iff (a : ArithUint256) (pos : ℕ) :
    a.bits = pos + 1 ↔ 2 ^ pos ≤ a.toNat ∧ a.toNat < 2 ^ (pos + 1) := by
  rw [bits_eq]
  constructor
  · intro h
    constructor
    · exact Nat.lt_size.mp (by omega)
    · rw [← h]
      exact Nat.lt_size_self _
  · rintro ⟨hlow, hhigh⟩
    exact BaseUint.size_eq_succ hlow hhigh

/-- The operators compute with numbers modulo `2 ^ 256`, on the object `a` and the operand `b`. -/
structure Computes (a : ArithUint256) (b : Operand) : Prop where
  addAssign : (a.addAssign b).toNat = (a.toNat + (b.value a).toNat) % 2 ^ 256
  addAssign64 : ∀ b64 : UInt64, (a.addAssign64 b64).toNat = (a.toNat + b64.toNat) % 2 ^ 256
  increment : a.increment.toNat = (a.toNat + 1) % 2 ^ 256
  subAssign : (a.subAssign b).toNat = (a.toNat + (2 ^ 256 - (b.value a).toNat)) % 2 ^ 256
  subAssign64 : ∀ b64 : UInt64,
    (a.subAssign64 b64).toNat = (a.toNat + (2 ^ 256 - b64.toNat)) % 2 ^ 256
  decrement : a.decrement.toNat = (a.toNat + (2 ^ 256 - 1)) % 2 ^ 256
  neg : a.neg.toNat = (2 ^ 256 - a.toNat) % 2 ^ 256
  mulAssign : (a.mulAssign b).toNat = a.toNat * (b.value a).toNat % 2 ^ 256
  times : (a.times (b.value a)).toNat = a.toNat * (b.value a).toNat % 2 ^ 256
  mulWord : ∀ b32 : UInt32, (a.mul b32).toNat = a.toNat * b32.toNat % 2 ^ 256
  shiftLeft : ∀ shift, (a.shiftLeft shift).toNat = a.toNat * 2 ^ shift % 2 ^ 256
  shiftRight : ∀ shift, (a.shiftRight shift).toNat = a.toNat / 2 ^ shift
  compareTo : a.compareTo (b.value a) = compare a.toNat (b.value a).toNat
  equal : a.equal (b.value a) = decide (a.toNat = (b.value a).toNat)
  equalTo : ∀ b64 : UInt64, a.equalTo b64 = decide (a.toNat = b64.toNat)
  bits_zero : a.toNat = 0 → a.bits = 0
  bits_succ : ∀ pos, a.bits = pos + 1 ↔ 2 ^ pos ≤ a.toNat ∧ a.toNat < 2 ^ (pos + 1)
  divAssign : (b.value a).toNat ≠ 0 →
    ∃ q, a.divAssign b = some q ∧ q.toNat = a.toNat / (b.value a).toNat

theorem mulAssign_iff (a : ArithUint256) (b : Operand) :
    (a.mulAssign b).toNat = a.toNat * (b.value a).toNat % 2 ^ 256 ↔
      (b = .itself → a.toNat * a.toNat % 2 ^ 256 = 0) := by
  cases b with
  | itself =>
    rw [toNat_mulAssign_itself]
    constructor
    · intro h _
      exact h.symm
    · intro h
      exact (h rfl).symm
  | other b =>
    constructor
    · rintro _ ⟨⟩
    · intro _
      exact toNat_mulAssign_other

/-- **All operators** compute modulo `2 ^ 256`, unless a number is multiplied with itself in place. -/
theorem computes_iff (a : ArithUint256) (b : Operand) :
    Computes a b ↔ (b = .itself → a.toNat * a.toNat % 2 ^ 256 = 0) := by
  constructor
  · intro h
    exact (mulAssign_iff a b).mp h.mulAssign
  · intro h
    constructor
    · exact toNat_add_mod a _
    · intro b64
      rw [addAssign64, toNat_add_mod, toNat_ofUInt64]
    · have hinc := BaseUint.toNat_increment a.pn
      rwa [a.width] at hinc
    · exact toNat_sub_mod a _
    · intro b64
      rw [subAssign64, toNat_sub_mod, toNat_ofUInt64]
    · have hdec := BaseUint.toNat_decrement a.pn
      rwa [a.width] at hdec
    · have hneg := BaseUint.toNat_neg a.pn
      rwa [a.width] at hneg
    · exact (mulAssign_iff a b).mpr h
    · exact toNat_mulAssign_other
    · intro b32
      have hmul := BaseUint.toNat_mul a.pn b32
      rwa [a.width] at hmul
    · intro shift
      have hshift := BaseUint.toNat_shiftLeft a.pn shift
      rwa [a.width, Nat.shiftLeft_eq] at hshift
    · intro shift
      exact toNat_shiftRight shift
    · exact BaseUint.compareTo_eq (a.width.trans (b.value a).width.symm)
    · exact equal_eq a _
    · intro b64
      exact BaseUint.equalTo_eq (by rw [a.width]; decide) b64
    · intro hzero
      rw [bits_eq, hzero, Nat.size_zero]
    · exact bits_eq_succ_iff a
    · exact div_eq

/-- Two, multiplied with itself in place. -/
theorem not_computes_two : ¬ ∀ a b, Computes a b := by
  intro h
  have hzero := (mulAssign_iff (ofUInt64 2) .itself).mp (h _ _).mulAssign rfl
  rw [toNat_ofUInt64] at hzero
  exact absurd hzero (by decide)

end ArithUint256
