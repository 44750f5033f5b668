/-
# The smallest form of a script number

`CScriptNum::serialize`, `isSmallestFormat` and `createSmallestFormat`, and their big endian
relative `MinimalizeBigEndianArray` (`libs/server/script/script.cpp`), are about one form of a
number: the shortest vector with its value, where the value of a vector of any length is that of
its bytes with the highest bit as the sign, `setVch`.

* `smallest_induction` : what `createSmallestFormat` does to the end of a vector;
* `eq_of_smallest` : a number has one vector that `isSmallestFormat` accepts;
* `codec` : the four functions agree.
-/
import Hub.ScriptNum
import Mathlib.Data.List.GetD
import Mathlib.Data.List.Induction

open ByteCodec Bytes

namespace CScriptNum

/-! ## The functions that return something else than the vector -/

/-- What `createSmallestFormat` returns. -/
def createSmallestFormatReturns (data : Bytes) : Bool :=
  if data = [] then false
  else if back data &&& 0x7f ≠ 0 then false
  else if data.length = 1 then true
  else if data.getD (data.length - 2) 0 &&& 0x80 ≠ 0 then false
  else true

/-- The loop of `MinimalizeBigEndianArray`. -/
def minimalizeLoop : Bool → Bytes → Bytes → Bytes
  | _, answer, [] => answer
  | havePushed, answer, x :: data =>
    if !havePushed ∧ x = 0 then minimalizeLoop havePushed answer data
    else minimalizeLoop true (answer ++ [x]) data

/-- `MinimalizeBigEndianArray`. -/
def minimalizeBigEndianArray : Bytes → Bytes
  | [] => []
  | x :: data =>
    let neg := x &&& 0x80
    let answer := minimalizeLoop false [] ((x &&& 0x7f) :: data)
    if answer = [] then answer
    else
      -- something has been pushed
      let answer := if answer.headD 0 &&& 0x80 ≠ 0 then 0 :: answer else answer
      (answer.headD 0 ||| neg) :: answer.tail

/-! ## Bytes -/

theorem and_0x7f_toNat (b : UInt8) : (b &&& 0x7f).toNat = b.toNat % 128 := by
  rw [UInt8.toNat_and]
  exact Nat.and_two_pow_sub_one_eq_mod b.toNat 7

theorem and_0x7f_eq_zero (b : UInt8) : b &&& 0x7f = 0 ↔ b = 0 ∨ b = 0x80 := by
  have h0 : (0 : UInt8).toNat = 0 := rfl
  have h80 : (0x80 : UInt8).toNat = 128 := rfl
  have hlt := b.toNat_lt
  rw [← UInt8.toNat_inj, ← UInt8.toNat_inj, ← UInt8.toNat_inj, and_0x7f_toNat, h0, h80]
  omega

theorem and_0x80_ne_zero (b : UInt8) : b &&& 0x80 ≠ 0 ↔ 128 ≤ b.toNat := by
  rw [Ne, and_signbit_eq_zero]
  omega

theorem and_or_distrib (b x y : UInt8) : b &&& (x ||| y) = b &&& x ||| b &&& y := by
  rw [← UInt8.toNat_inj]
  simp only [UInt8.toNat_and, UInt8.toNat_or, Nat.and_or_distrib_left]

/-- A byte without its sign bit, and its sign bit. -/
theorem and_or_and (b : UInt8) : b &&& 0x7f ||| b &&& 0x80 = b := by
  have hall : (0x7f ||| 0x80 : UInt8) = -1 := rfl
  rw [← and_or_distrib, hall, UInt8.and_neg_one]

theorem or_0x80 {b : UInt8} (h : b &&& 0x80 = 0) :
    (b ||| 0x80).toNat = b.toNat + 128 := by
  have hlt := (and_signbit_eq_zero b).mp h
  have hor : 2 ^ 7 * 1 + b.toNat = 2 ^ 7 * 1 ||| b.toNat := Nat.two_pow_add_eq_or_of_lt hlt 1
  have h80 : (0x80 : UInt8).toNat = 2 ^ 7 * 1 := rfl
  rw [UInt8.toNat_or, h80, Nat.or_comm, ← hor]
  omega

/-! ## The value of a vector -/

theorem setVch_append_of_nonneg {w : Bytes} {b : UInt8} (h : b &&& 0x80 = 0) :
    setVch (w ++ [b]) = (leNat w + 256 ^ w.length * b.toNat : ℕ) := by
  rw [setVch, if_neg (by simp), back_append_singleton, if_neg (not_not.mpr h), leNat_append]
  simp [leNat]

theorem setVch_append_of_neg {w : Bytes} {b : UInt8} (h : b &&& 0x80 ≠ 0) :
    setVch (w ++ [b]) = -((leNat w + 256 ^ w.length * (b.toNat - 128) : ℕ) : ℤ) := by
  have hb := (and_0x80_ne_zero b).mp h
  have hlen : (w ++ [b]).length - 1 = w.length := by simp
  have hsub : leNat (w ++ [b]) - 0x80 * 256 ^ w.length =
      leNat w + 256 ^ w.length * (b.toNat - 128) := by
    rw [leNat_append, leNat, leNat, Nat.mul_zero, Nat.add_zero, Nat.mul_sub, Nat.mul_comm 0x80]
    have hle : 256 ^ w.length * 128 ≤ 256 ^ w.length * b.toNat := Nat.mul_le_mul_left _ hb
    omega
  rw [setVch, if_neg (by simp), back_append_singleton, if_pos h, hlen, hsub]

/-- The magnitude of a vector. -/
theorem natAbs_setVch_append (w : Bytes) (b : UInt8) :
    (setVch (w ++ [b])).natAbs = leNat w + 256 ^ w.length * (b.toNat % 128) := by
  have hb := b.toNat_lt
  by_cases h : b &&& 0x80 = 0
  · have hlow := (and_signbit_eq_zero b).mp h
    rw [setVch_append_of_nonneg h, Nat.mod_eq_of_lt hlow, Int.natAbs_natCast]
  · have hhigh := (and_0x80_ne_zero b).mp h
    have hmod : b.toNat % 128 = b.toNat - 128 := by omega
    rw [setVch_append_of_neg h, hmod, Int.natAbs_neg, Int.natAbs_natCast]

theorem leNat_append_singleton (w : Bytes) (b : UInt8) :
    leNat (w ++ [b]) = leNat w + 256 ^ w.length * b.toNat := by
  rw [leNat_append, leNat, leNat, Nat.mul_zero, Nat.add_zero]

/-! ## What `createSmallestFormat` does -/

theorem createSmallestFormat_of_and_ne_zero {w : Bytes} {b : UInt8} (h : b &&& 0x7f ≠ 0) :
    createSmallestFormat (w ++ [b]) = w ++ [b] := by
  rw [createSmallestFormat, if_neg (by simp), back_append_singleton, if_pos h]

theorem createSmallestFormat_singleton {b : UInt8} (h : b &&& 0x7f = 0) :
    createSmallestFormat [b] = [] := by
  rw [createSmallestFormat, if_neg (by simp), if_neg (by simpa [back] using h)]
  exact if_pos rfl

/-- The byte before the last one. -/
theorem getD_before_last (w : Bytes) (x b : UInt8) :
    (w ++ [x] ++ [b]).getD ((w ++ [x] ++ [b]).length - 2) 0 = x := by
  have hlen : (w ++ [x] ++ [b]).length - 2 = w.length := by simp
  rw [hlen]
  simp

/-- The vector is trimmed. -/
theorem createSmallestFormat_of_trim {w : Bytes} {x b : UInt8} (hb : b &&& 0x7f = 0)
    (hx : x &&& 0x80 = 0) : createSmallestFormat (w ++ [x] ++ [b]) =
      trim (w ++ [x] ++ [b]) b (w.length + 1) := by
  have hlen : (w ++ [x] ++ [b]).length ≠ 1 := by simp
  have hpos : (w ++ [x] ++ [b]).length - 1 = w.length + 1 := by simp
  rw [createSmallestFormat, if_neg (by simp), back_append_singleton, if_neg (not_not.mpr hb),
    if_neg hlen, getD_before_last, if_neg (not_not.mpr hx), hpos]

theorem createSmallestFormat_of_high {w : Bytes} {x b : UInt8} (hb : b &&& 0x7f = 0)
    (hx : x &&& 0x80 ≠ 0) : createSmallestFormat (w ++ [x] ++ [b]) = w ++ [x] ++ [b] := by
  have hlen : (w ++ [x] ++ [b]).length ≠ 1 := by simp
  rw [createSmallestFormat, if_neg (by simp), back_append_singleton, if_neg (not_not.mpr hb),
    if_neg hlen, getD_before_last, if_pos hx]

theorem createSmallestFormat_of_low {w : Bytes} {x b : UInt8} (hb : b &&& 0x7f = 0)
    (hx : x &&& 0x80 = 0) (hne : x ≠ 0) :
    createSmallestFormat (w ++ [x] ++ [b]) = w ++ [x ||| b] := by
  have hget : (w ++ [x] ++ [b]).getD w.length 0 = x := by simp
  have hset : (w ++ [x] ++ [b]).set w.length (x ||| b) = w ++ [x ||| b, b] := by simp
  rw [createSmallestFormat_of_trim hb hx, trim, hget, if_pos hne, if_neg (not_not.mpr hx), hset,
    List.take_length_add_append]
  rfl

/-- Bytes behind the position do not matter. -/
theorem trim_zero (w : Bytes) (b : UInt8) : ∀ i ≤ w.length,
    trim (w ++ [0] ++ [b]) b i = trim (w ++ [b]) b i := by
  intro i
  induction i with
  | zero =>
    intro _
    rfl
  | succ i ih =>
    intro hi
    have hget : ∀ v : Bytes, (w ++ v).getD i 0 = w.getD i 0 := by
      intro v
      rw [List.getD_append _ _ _ _ (by omega)]
    rw [trim, trim, ih (by omega), List.append_assoc, hget, hget]
    split_ifs
    · rcases Nat.lt_or_eq_of_le hi with hlt | heq
      · rw [List.set_append_left _ _ hlt, List.set_append_left _ _ hlt,
          List.take_append_of_le_length (by rw [List.length_set]; omega),
          List.take_append_of_le_length (by rw [List.length_set]; omega)]
      · rw [heq, List.set_append_right _ _ le_rfl, List.set_append_right _ _ le_rfl, Nat.sub_self]
        have htake : i + 2 = w.length + 1 := by omega
        rw [htake, List.take_length_add_append, List.take_length_add_append]
        rfl
    · rw [List.set_append_left _ _ (by omega), List.set_append_left _ _ (by omega),
        List.take_append_of_le_length (by rw [List.length_set]; omega),
        List.take_append_of_le_length (by rw [List.length_set]; omega)]
    · rfl

/-- A zero before the last byte goes away. -/
theorem createSmallestFormat_zero {w : Bytes} {b : UInt8} (hb : b &&& 0x7f = 0) :
    createSmallestFormat (w ++ [0] ++ [b]) = createSmallestFormat (w ++ [b]) := by
  have hget : (w ++ [0] ++ [b]).getD w.length 0 = 0 := by simp
  rw [createSmallestFormat_of_trim hb (by decide), trim, hget, if_neg (by simp), trim_zero w b _ le_rfl]
  induction w using List.reverseRecOn with
  | nil => rw [List.nil_append, createSmallestFormat_singleton hb]; rfl
  | append_singleton w x _ =>
    by_cases hx : x &&& 0x80 = 0
    · rw [createSmallestFormat_of_trim hb hx, List.length_append, List.length_singleton]
    · have hget' : (w ++ [x] ++ [b]).getD w.length 0 = x := by simp
      have hne : x ≠ 0 := by
        rintro rfl
        exact hx (by decide)
      rw [createSmallestFormat_of_high hb hx, List.length_append, List.length_singleton, trim, hget',
        if_pos hne, if_pos hx]
      have hset : (w ++ [x] ++ [b]).set (w.length + 1) b = w ++ [x, b] := by simp
      rw [hset, List.take_length_add_append]
      simp

/-- **Induction over the end of a vector**, along `createSmallestFormat`. -/
theorem smallest_induction {P : Bytes → Prop} (nil : P [])
    (kept : ∀ w b, b &&& 0x7f ≠ 0 → P (w ++ [b]))
    (single : ∀ b : UInt8, b &&& 0x7f = 0 → P [b])
    (high : ∀ w x b, b &&& 0x7f = 0 → x &&& 0x80 ≠ 0 → P (w ++ [x] ++ [b]))
    (low : ∀ w x b, b &&& 0x7f = 0 → x &&& 0x80 = 0 → x ≠ 0 → P (w ++ [x] ++ [b]))
    (zero : ∀ w b, b &&& 0x7f = 0 → P (w ++ [b]) → P (w ++ [0] ++ [b])) : ∀ v, P v := by
  have hlast : ∀ (w : Bytes) (b : UInt8), P (w ++ [b]) := by
    intro w
    induction w using List.reverseRecOn with
    | nil =>
      intro b
      by_cases hb : b &&& 0x7f = 0
      · exact single b hb
      · exact kept [] b hb
    | append_singleton w x ih =>
      intro b
      by_cases hb : b &&& 0x7f = 0
      · by_cases hx : x &&& 0x80 = 0
        · by_cases hne : x = 0
          · subst hne
            exact zero w b hb (ih b)
          · exact low w x b hb hx hne
        · exact high w x b hb hx
      · exact kept (w ++ [x]) b hb
  intro v
  induction v using List.reverseRecOn with
  | nil => exact nil
  | append_singleton w b _ => exact hlast w b

/-! ## What is minimal -/

theorem isSmallestFormat_of_and_ne_zero {w : Bytes} {b : UInt8} (h : b &&& 0x7f ≠ 0) (n : ℕ) :
    isSmallestFormat (w ++ [b]) n = decide ((w ++ [b]).length ≤ n) := by
  rw [isSmallestFormat, back_append_singleton, if_neg h]
  by_cases hn : (w ++ [b]).length > n
  · rw [if_pos hn, decide_eq_false (by omega)]
  · rw [if_neg hn, ite_self, decide_eq_true (by omega)]

theorem isSmallestFormat_singleton {b : UInt8} (h : b &&& 0x7f = 0) (n : ℕ) :
    isSmallestFormat [b] n = false := by
  have hback : back [b] &&& 0x7f = 0 := h
  rw [isSmallestFormat, if_pos hback]
  split_ifs <;> first | rfl | simp_all

theorem isSmallestFormat_append {w : Bytes} {x b : UInt8} (h : b &&& 0x7f = 0) (n : ℕ) :
    isSmallestFormat (w ++ [x] ++ [b]) n =
      decide ((w ++ [x] ++ [b]).length ≤ n ∧ x &&& 0x80 ≠ 0) := by
  have hlen : ¬ (w ++ [x] ++ [b]).length ≤ 1 := by simp
  have hpos : (w ++ [x] ++ [b]).length > 0 := by simp
  rw [isSmallestFormat, back_append_singleton, if_pos h, if_pos hpos, getD_before_last]
  by_cases hn : (w ++ [x] ++ [b]).length > n
  · rw [if_pos hn, decide_eq_false (fun h => by omega)]
  · rw [if_neg hn]
    by_cases hx : x &&& 0x80 = 0
    · rw [if_pos (.inr hx), decide_eq_false (fun h => h.2 hx)]
    · rw [if_neg (by rintro (h | h); exacts [hlen h, hx h]), decide_eq_true ⟨by omega, hx⟩]

theorem or_and_0x7f_ne_zero {x b : UInt8} (hb : b &&& 0x7f = 0) (hx : x &&& 0x80 = 0) (hne : x ≠ 0) :
    (x ||| b) &&& 0x7f ≠ 0 := by
  rw [UInt8.and_comm, and_or_distrib, UInt8.and_comm _ b, hb, UInt8.or_zero, UInt8.and_comm, Ne,
    and_0x7f_eq_zero]
  rintro (rfl | rfl)
  · exact hne rfl
  · exact absurd hx (by decide)

/-- **The vector that is left passes the test.** -/
theorem isSmallestFormat_createSmallestFormat (n : ℕ) : ∀ v,
    isSmallestFormat (createSmallestFormat v) n = decide ((createSmallestFormat v).length ≤ n) := by
  apply smallest_induction
  case nil => rw [createSmallestFormat, if_pos rfl]; simp [isSmallestFormat]
  case kept =>
    intro w b hb
    rw [createSmallestFormat_of_and_ne_zero hb]
    exact isSmallestFormat_of_and_ne_zero hb n
  case single =>
    intro b hb
    rw [createSmallestFormat_singleton hb]
    simp [isSmallestFormat]
  case high =>
    intro w x b hb hx
    rw [createSmallestFormat_of_high hb hx, isSmallestFormat_append hb]
    simp only [hx, ne_eq, not_false_eq_true, and_true]
  case low =>
    intro w x b hb hx hne
    rw [createSmallestFormat_of_low hb hx hne]
    exact isSmallestFormat_of_and_ne_zero (or_and_0x7f_ne_zero hb hx hne) n
  case zero =>
    intro w b hb ih
    rw [createSmallestFormat_zero hb]
    exact ih

theorem setVch_zero {w : Bytes} {b : UInt8} (hb : b &&& 0x7f = 0) :
    setVch (w ++ [0] ++ [b]) = setVch (w ++ [b]) := by
  have hnat : leNat (w ++ [0]) = leNat w := by
    rw [leNat_append_singleton]
    simp
  rcases (and_0x7f_eq_zero b).mp hb with rfl | rfl
  · rw [setVch_append_of_nonneg (by decide), setVch_append_of_nonneg (by decide), hnat]
    simp
  · rw [setVch_append_of_neg (by decide), setVch_append_of_neg (by decide), hnat]
    simp

theorem setVch_low {w : Bytes} {x b : UInt8} (hb : b &&& 0x7f = 0) (hx : x &&& 0x80 = 0) :
    setVch (w ++ [x ||| b]) = setVch (w ++ [x] ++ [b]) := by
  rcases (and_0x7f_eq_zero b).mp hb with rfl | rfl
  · rw [UInt8.or_zero, setVch_append_of_nonneg hx, setVch_append_of_nonneg (by decide),
      leNat_append_singleton]
    simp
  · have hor := or_0x80 hx
    have hbit : (x ||| 0x80) &&& 0x80 ≠ 0 := (and_0x80_ne_zero _).mpr (by omega)
    have hsub : x.toNat + 128 - 128 = x.toNat := by omega
    rw [setVch_append_of_neg hbit, setVch_append_of_neg (by decide), leNat_append_singleton, hor, hsub]
    simp

/-- **The value stays.** -/
theorem setVch_createSmallestFormat : ∀ v, setVch (createSmallestFormat v) = setVch v := by
  apply smallest_induction
  case nil => rw [createSmallestFormat, if_pos rfl]
  case kept =>
    intro w b hb
    rw [createSmallestFormat_of_and_ne_zero hb]
  case single =>
    intro b hb
    rw [createSmallestFormat_singleton hb]
    rcases (and_0x7f_eq_zero b).mp hb with rfl | rfl <;> decide
  case high =>
    intro w x b hb hx
    rw [createSmallestFormat_of_high hb hx]
  case low =>
    intro w x b hb hx hne
    rw [createSmallestFormat_of_low hb hx hne]
    exact setVch_low hb hx
  case zero =>
    intro w b hb ih
    rw [createSmallestFormat_zero hb, ih, setVch_zero hb]

theorem createSmallestFormat_idem : ∀ v,
    createSmallestFormat (createSmallestFormat v) = createSmallestFormat v := by
  apply smallest_induction
  case nil => rfl
  case kept =>
    intro w b hb
    rw [createSmallestFormat_of_and_ne_zero hb, createSmallestFormat_of_and_ne_zero hb]
  case single =>
    intro b hb
    rw [createSmallestFormat_singleton hb]
    rfl
  case high =>
    intro w x b hb hx
    rw [createSmallestFormat_of_high hb hx, createSmallestFormat_of_high hb hx]
  case low =>
    intro w x b hb hx hne
    rw [createSmallestFormat_of_low hb hx hne,
      createSmallestFormat_of_and_ne_zero (or_and_0x7f_ne_zero hb hx hne)]
  case zero =>
    intro w b hb ih
    rw [createSmallestFormat_zero hb]
    exact ih

/-- `createSmallestFormat` returns whether it changed the vector. -/
theorem createSmallestFormatReturns_eq : ∀ v,
    createSmallestFormatReturns v = decide (createSmallestFormat v ≠ v) := by
  apply smallest_induction
  case nil => rfl
  case kept =>
    intro w b hb
    rw [createSmallestFormat_of_and_ne_zero hb, createSmallestFormatReturns, if_neg (by simp),
      back_append_singleton, if_pos hb, decide_eq_false (not_not.mpr rfl)]
  case single =>
    intro b hb
    rw [createSmallestFormat_singleton hb, createSmallestFormatReturns, if_neg (by simp),
      if_neg (not_not.mpr (show back [b] &&& 0x7f = 0 from hb))]
    exact (if_pos rfl).trans (decide_eq_true (List.cons_ne_nil b []).symm).symm
  case high =>
    intro w x b hb hx
    rw [createSmallestFormat_of_high hb hx, createSmallestFormatReturns, if_neg (by simp),
      back_append_singleton, if_neg (not_not.mpr hb), if_neg (by simp), getD_before_last, if_pos hx,
      decide_eq_false (not_not.mpr rfl)]
  case low =>
    intro w x b hb hx hne
    have hlen : w ++ [x ||| b] ≠ w ++ [x] ++ [b] := by
      intro h
      have := congrArg List.length h
      simp at this
    rw [createSmallestFormat_of_low hb hx hne, createSmallestFormatReturns, if_neg (by simp),
      back_append_singleton, if_neg (not_not.mpr hb), if_neg (by simp), getD_before_last,
      if_neg (not_not.mpr hx), decide_eq_true hlen]
  case zero =>
    intro w b hb _
    have hne : createSmallestFormat (w ++ [b]) ≠ w ++ [0] ++ [b] := by
      intro h
      have hle := length_createSmallestFormat_le (w ++ [b])
      rw [h] at hle
      simp at hle
    rw [createSmallestFormat_zero hb, createSmallestFormatReturns, if_neg (by simp),
      back_append_singleton, if_neg (not_not.mpr hb), if_neg (by simp), getD_before_last,
      if_neg (by decide), decide_eq_true hne]

/-! ## The big endian relative -/

theorem minimalizeLoop_true (answer data : Bytes) : minimalizeLoop true answer data = answer ++ data := by
  induction data generalizing answer with
  | nil => rw [minimalizeLoop, List.append_nil]
  | cons x data ih =>
    rw [minimalizeLoop, if_neg (by simp), ih, List.append_assoc]
    rfl

theorem minimalizeLoop_zero (data : Bytes) :
    minimalizeLoop false [] (0 :: data) = minimalizeLoop false [] data := by
  rw [minimalizeLoop, if_pos (by simp)]

theorem minimalizeLoop_of_ne_zero {x : UInt8} (data : Bytes) (h : x ≠ 0) :
    minimalizeLoop false [] (x :: data) = x :: data := by
  rw [minimalizeLoop, if_neg (by simpa using h), minimalizeLoop_true]
  rfl

/-- Without the sign bit of the first byte, the bytes up to the first one that is not zero go. -/
theorem minimalizeBigEndianArray_of_zero {b : UInt8} (hb : b &&& 0x7f = 0) (data : Bytes) :
    minimalizeBigEndianArray (b :: 0 :: data) = minimalizeBigEndianArray (b :: data) := by
  simp only [minimalizeBigEndianArray, hb, minimalizeLoop_zero]

theorem minimalizeBigEndianArray_of_ne_zero {b x : UInt8} (hb : b &&& 0x7f = 0) (hx : x ≠ 0)
    (data : Bytes) : minimalizeBigEndianArray (b :: x :: data) =
      if x &&& 0x80 ≠ 0 then b :: x :: data else (x ||| b) :: data := by
  have hand : b &&& 0x80 = b := by
    rcases (and_0x7f_eq_zero b).mp hb with rfl | rfl <;> decide
  simp only [minimalizeBigEndianArray, hb, minimalizeLoop_zero, minimalizeLoop_of_ne_zero data hx, hand,
    if_neg (List.cons_ne_nil x data), List.headD_cons]
  split_ifs
  · rw [List.headD_cons, List.tail_cons, UInt8.zero_or]
  · rw [List.headD_cons, List.tail_cons]

/-- **The big endian relative does the same.** -/
theorem reverse_createSmallestFormat : ∀ v,
    (createSmallestFormat v).reverse = minimalizeBigEndianArray v.reverse := by
  apply smallest_induction
  case nil => rfl
  case kept =>
    intro w b hb
    have hhead : ¬ (b &&& 0x7f) &&& 0x80 ≠ 0 := by
      have hnone : (0x7f &&& 0x80 : UInt8) = 0 := rfl
      rw [not_not, UInt8.and_assoc, hnone, UInt8.and_zero]
    rw [createSmallestFormat_of_and_ne_zero hb, List.reverse_append, List.reverse_singleton,
      List.singleton_append]
    simp only [minimalizeBigEndianArray, minimalizeLoop_of_ne_zero _ hb,
      if_neg (List.cons_ne_nil _ _), List.headD_cons, if_neg hhead, List.tail_cons, and_or_and]
  case single =>
    intro b hb
    rw [createSmallestFormat_singleton hb, List.reverse_singleton]
    simp only [minimalizeBigEndianArray, hb, minimalizeLoop_zero]
    rfl
  case high =>
    intro w x b hb hx
    have hne : x ≠ 0 := by
      rintro rfl
      exact hx (by decide)
    rw [createSmallestFormat_of_high hb hx]
    simp only [List.reverse_append, List.reverse_singleton, List.cons_append, List.nil_append]
    rw [minimalizeBigEndianArray_of_ne_zero hb hne, if_pos hx]
  case low =>
    intro w x b hb hx hne
    rw [createSmallestFormat_of_low hb hx hne]
    simp only [List.reverse_append, List.reverse_singleton, List.cons_append, List.nil_append]
    rw [minimalizeBigEndianArray_of_ne_zero hb hne, if_neg (not_not.mpr hx)]
  case zero =>
    intro w b hb ih
    rw [createSmallestFormat_zero hb, ih]
    simp only [List.reverse_append, List.reverse_singleton, List.cons_append, List.nil_append]
    rw [minimalizeBigEndianArray_of_zero hb]

/-! ## One vector for each number -/

/-- A vector that passes the test is as long as its value needs. -/
theorem pow_le_of_isSmallestFormat {n : ℕ} : ∀ v, isSmallestFormat v n = true → v ≠ [] →
    256 ^ (v.length - 1) ≤ 2 * (setVch v).natAbs := by
  apply smallest_induction
  case nil => exact fun _ h => absurd rfl h
  case kept =>
    intro w b hb _ _
    have hpos : 0 < b.toNat % 128 := by
      rw [← and_0x7f_toNat]
      exact Nat.pos_of_ne_zero fun h => hb (UInt8.toNat_inj.mp h)
    have hle : 256 ^ w.length * 1 ≤ 256 ^ w.length * (b.toNat % 128) := Nat.mul_le_mul_left _ hpos
    rw [natAbs_setVch_append, List.length_append, List.length_singleton, Nat.add_sub_cancel]
    omega
  case single =>
    intro b hb h
    rw [isSmallestFormat_singleton hb] at h
    cases h
  case high =>
    intro w x b hb hx _ _
    have hlarge := (and_0x80_ne_zero x).mp hx
    have hle : 256 ^ w.length * 128 ≤ 256 ^ w.length * x.toNat := Nat.mul_le_mul_left _ hlarge
    rw [natAbs_setVch_append, leNat_append_singleton, List.length_append, List.length_append,
      List.length_singleton, List.length_singleton, Nat.add_sub_cancel, pow_succ]
    omega
  case low =>
    intro w x b hb hx hne h
    rw [isSmallestFormat_append hb] at h
    exact absurd hx (of_decide_eq_true h).2
  case zero =>
    intro w b hb _ h
    rw [isSmallestFormat_append hb] at h
    exact absurd (by decide) (of_decide_eq_true h).2

theorem lt_pow_of_setVch {v : Bytes} (h : v ≠ []) : 2 * (setVch v).natAbs < 256 ^ v.length := by
  have hpos := List.length_pos_iff.mpr h
  have hlt := natAbs_setVch_lt (k := v.length) le_rfl hpos
  obtain ⟨k, hk⟩ := Nat.exists_eq_succ_of_ne_zero hpos.ne'
  rw [hk, Nat.succ_sub_one] at hlt
  rw [hk, pow_succ]
  omega

/-- **The smallest form is the shortest vector.** -/
theorem length_le_of_isSmallestFormat {v w : Bytes} {n : ℕ} (hv : isSmallestFormat v n = true)
    (h : setVch v = setVch w) : v.length ≤ w.length := by
  by_cases hnil : v = []
  · rw [hnil]
    exact Nat.zero_le _
  · have hlow := pow_le_of_isSmallestFormat v hv hnil
    have hpos : 0 < 256 ^ (v.length - 1) := Nat.pow_pos (by omega)
    have hw : w ≠ [] := by
      rintro rfl
      rw [h] at hlow
      change 256 ^ (v.length - 1) ≤ 0 at hlow
      omega
    have hhigh := lt_pow_of_setVch hw
    rw [← h] at hhigh
    have hlt : v.length - 1 < w.length :=
      (Nat.pow_lt_pow_iff_right (by omega)).mp (lt_of_le_of_lt hlow hhigh)
    omega

/-- Vectors of one length are told apart by their value, zero apart. -/
theorem eq_of_length_eq {v w : Bytes} (hlen : v.length = w.length) (h : setVch v = setVch w)
    (hne : setVch v ≠ 0) : v = w := by
  have hvne : v ≠ [] := by
    rintro rfl
    exact hne rfl
  have hwne : w ≠ [] := by
    rintro rfl
    exact hvne (List.length_eq_zero_iff.mp hlen)
  obtain ⟨v, b, rfl⟩ : ∃ v' b, v = v' ++ [b] :=
    ⟨v.dropLast, v.getLast hvne, (List.dropLast_append_getLast hvne).symm⟩
  obtain ⟨w, c, rfl⟩ : ∃ w' c, w = w' ++ [c] :=
    ⟨w.dropLast, w.getLast hwne, (List.dropLast_append_getLast hwne).symm⟩
  rw [List.length_append, List.length_append, List.length_singleton, List.length_singleton] at hlen
  have hlen : v.length = w.length := by omega
  have habs := congrArg Int.natAbs h
  rw [natAbs_setVch_append, natAbs_setVch_append, ← hlen] at habs
  -- the digits, and the last one without the sign
  have hv := leNat_lt v
  have hw := leNat_lt w
  rw [← hlen] at hw
  have hpos : 0 < 256 ^ v.length := Nat.pow_pos (by omega)
  have hmod : leNat v = leNat w := by
    have hmod := congrArg (· % 256 ^ v.length) habs
    simpa only [Nat.add_mul_mod_self_left, Nat.mod_eq_of_lt hv, Nat.mod_eq_of_lt hw] using hmod
  have hlast : b.toNat % 128 = c.toNat % 128 := by
    rw [hmod] at habs
    exact Nat.eq_of_mul_eq_mul_left hpos (Nat.add_left_cancel habs)
  have hvw : v = w := by
    rw [← leBytes_leNat v, ← leBytes_leNat w, hmod, hlen]
  -- the sign
  have hb := b.toNat_lt
  have hc := c.toNat_lt
  have hbc : b.toNat = c.toNat := by
    by_cases hbneg : b &&& 0x80 = 0
    · by_cases hcneg : c &&& 0x80 = 0
      · have hb' := (and_signbit_eq_zero b).mp hbneg
        have hc' := (and_signbit_eq_zero c).mp hcneg
        omega
      · rw [setVch_append_of_nonneg hbneg, setVch_append_of_neg hcneg] at h
        rw [setVch_append_of_nonneg hbneg] at hne
        omega
    · by_cases hcneg : c &&& 0x80 = 0
      · rw [setVch_append_of_neg hbneg, setVch_append_of_nonneg hcneg] at h
        rw [setVch_append_of_neg hbneg] at hne
        omega
      · have hb' := (and_0x80_ne_zero b).mp hbneg
        have hc' := (and_0x80_ne_zero c).mp hcneg
        omega
  rw [hvw, UInt8.toNat_inj.mp hbc]

/-- **A number has one vector that passes the test.** -/
theorem eq_of_smallest {v w : Bytes} {m n : ℕ} (hv : isSmallestFormat v m = true)
    (hw : isSmallestFormat w n = true) (h : setVch v = setVch w) : v = w := by
  have hlen : v.length = w.length :=
    le_antisymm (length_le_of_isSmallestFormat hv h) (length_le_of_isSmallestFormat hw h.symm)
  by_cases hnil : v = []
  · rw [hnil] at hlen
    rw [hnil, List.length_eq_zero_iff.mp hlen.symm]
  · apply eq_of_length_eq hlen h
    have hlow := pow_le_of_isSmallestFormat v hv hnil
    have hpos : 0 < 256 ^ (v.length - 1) := Nat.pow_pos (by omega)
    omega

/-! ## Writing a number -/

theorem leNat_magnitude {k a : ℕ} (h : a < 256 ^ k) : leNat (magnitude k a) = a := by
  induction k generalizing a with
  | zero =>
    rw [pow_zero] at h
    rw [magnitude, leNat]
    omega
  | succ k ih =>
    rw [magnitude]
    split_ifs with ha
    · rw [leNat, ha]
    · have hbyte : (UInt8.ofNat a).toNat = a % 256 := UInt8.toNat_ofNat'
      rw [leNat, ih (by rw [pow_succ] at h; omega), hbyte]
      omega

/-- The last byte of a number is not zero. -/
theorem exists_magnitude_eq {k a : ℕ} (h : a < 256 ^ k) (ha : a ≠ 0) :
    ∃ w x, magnitude k a = w ++ [x] ∧ x ≠ 0 := by
  induction k generalizing a with
  | zero =>
    rw [pow_zero] at h
    omega
  | succ k ih =>
    rw [magnitude, if_neg ha]
    by_cases hdiv : a / 256 = 0
    · have hzero : magnitude k (a / 256) = [] := by
        rw [hdiv]
        cases k with
        | zero => rfl
        | succ k => rw [magnitude, if_pos rfl]
      refine ⟨[], UInt8.ofNat a, by rw [hzero, List.nil_append], fun hx => ?_⟩
      have hbyte : (UInt8.ofNat a).toNat = a % 256 := UInt8.toNat_ofNat'
      rw [hx] at hbyte
      change 0 = a % 256 at hbyte
      omega
    · obtain ⟨w, x, hw, hx⟩ := ih (by rw [pow_succ] at h; omega) hdiv
      exact ⟨UInt8.ofNat a :: w, x, by rw [hw, List.cons_append], hx⟩

theorem natAbs_lt_of_inInt64 {n : ℤ} (h : InInt64 n) : n.natAbs < 256 ^ 8 := by
  obtain ⟨hlow, hhigh⟩ := h
  omega

/-- **What is written passes the test, and has the value.** -/
theorem serialize_smallest {n : ℤ} (h : InInt64 n) :
    setVch (serialize n) = n ∧
      isSmallestFormat (serialize n) (serialize n).length = true := by
  by_cases hzero : n = 0
  · subst hzero
    decide
  · have hlt := natAbs_lt_of_inInt64 h
    obtain ⟨w, x, hw, hx⟩ := exists_magnitude_eq hlt (by omega)
    have hnat := leNat_magnitude hlt
    rw [hw] at hnat
    rw [serialize, if_neg hzero, hw, withSign, back_append_singleton]
    by_cases hbit : x &&& 0x80 = 0
    · have hlow := (and_signbit_eq_zero x).mp hbit
      have hand : x &&& 0x7f ≠ 0 := by
        intro hand
        have hmod := and_0x7f_toNat x
        rw [hand, Nat.mod_eq_of_lt hlow] at hmod
        exact hx (UInt8.toNat_inj.mp hmod.symm)
      rw [leNat_append_singleton] at hnat
      rw [if_neg (not_not.mpr hbit)]
      by_cases hneg : n < 0
      · have hor : (x ||| 0x80) &&& 0x7f ≠ 0 := or_and_0x7f_ne_zero (by decide) hbit hx
        have hhigh : (x ||| 0x80) &&& 0x80 ≠ 0 := by
          rw [and_0x80_ne_zero, or_0x80 hbit]
          omega
        have hset : setBack (w ++ [x]) (x ||| 0x80) = w ++ [x ||| 0x80] := by simp [setBack]
        rw [if_pos (decide_eq_true hneg), hset]
        constructor
        · rw [setVch_append_of_neg hhigh, or_0x80 hbit, Nat.add_sub_cancel, hnat]
          omega
        · rw [isSmallestFormat_of_and_ne_zero hor]
          exact decide_eq_true le_rfl
      · rw [if_neg (by simpa using hneg)]
        constructor
        · rw [setVch_append_of_nonneg hbit, hnat]
          omega
        · rw [isSmallestFormat_of_and_ne_zero hand]
          exact decide_eq_true le_rfl
    · -- the sign has a byte of its own
      rw [if_pos hbit]
      by_cases hneg : n < 0
      · rw [if_pos (decide_eq_true hneg)]
        constructor
        · rw [setVch_append_of_neg (by decide), hnat, show (0x80 : UInt8).toNat - 128 = 0 from rfl,
            Nat.mul_zero, Nat.add_zero]
          omega
        · rw [isSmallestFormat_append (by decide)]
          exact decide_eq_true ⟨le_rfl, hbit⟩
      · rw [if_neg (by simpa using hneg)]
        constructor
        · rw [setVch_append_of_nonneg (by decide), hnat, show (0 : UInt8).toNat = 0 from rfl,
            Nat.mul_zero, Nat.add_zero]
          omega
        · rw [isSmallestFormat_append (by decide)]
          exact decide_eq_true ⟨le_rfl, hbit⟩

/-- A vector of eight bytes is enough. -/
theorem length_serialize_le_eight {n : ℤ} (h : InInt64 n) (hmin : n ≠ -2 ^ 63) :
    (serialize n).length ≤ 8 := by
  obtain ⟨hvalue, hsmall⟩ := serialize_smallest h
  by_contra hlen
  have hlow := pow_le_of_isSmallestFormat _ hsmall (by
    intro hnil
    rw [hnil] at hlen
    exact hlen (Nat.zero_le _))
  have hmono : 256 ^ 8 ≤ 256 ^ ((serialize n).length - 1) := Nat.pow_le_pow_right (by omega) (by omega)
  rw [hvalue] at hlow
  obtain ⟨hl, hh⟩ := h
  omega

theorem isSmallestFormat_mono {v : Bytes} {m n : ℕ} (h : isSmallestFormat v m = true)
    (hn : v.length ≤ n) : isSmallestFormat v n = true := by
  unfold isSmallestFormat at h ⊢
  by_cases hm : v.length > m
  · rw [if_pos hm] at h
    cases h
  · rw [if_neg hm] at h
    rw [if_neg (by omega)]
    exact h

/-- `CScriptNum(vch, fRequireMinimal, nMaxNumSize)`. -/
def ofVch (vch : Bytes) (fRequireMinimal : Bool) (nMaxNumSize : ℕ) : Except String CScriptNum :=
  if vch.length > nMaxNumSize then .error "script number overflow"
  else if fRequireMinimal ∧ ¬ isSmallestFormat vch nMaxNumSize then
    .error "non-minimally encoded script number"
  else .ok ⟨setVch vch⟩

/-- The test of a vector of eight bytes is whether it is what is written of its value. -/
theorem isSmallestFormat_iff {v : Bytes} (hlen : v.length ≤ 8) :
    isSmallestFormat v 8 = true ↔ v = serialize (setVch v) := by
  have habs := natAbs_setVch_lt hlen (by omega)
  have hint : InInt64 (setVch v) := by
    constructor <;> omega
  obtain ⟨hvalue, hsmall⟩ := serialize_smallest hint
  constructor
  · intro h
    exact eq_of_smallest h hsmall hvalue.symm
  · intro h
    rw [h] at hlen ⊢
    exact isSmallestFormat_mono hsmall hlen

/-- **The codec of script numbers.** -/
theorem codec :
    (∀ n : ℤ, InInt64 n → n ≠ -2 ^ 63 → ofVch (serialize n) true 8 = .ok ⟨n⟩ ∧
      ∀ v, setVch v = n → v = serialize n ∨ (serialize n).length < v.length) ∧
    (∀ v : Bytes, v.length ≤ 8 → (isSmallestFormat v 8 = true ↔ v = serialize (setVch v))) ∧
    ∀ v : Bytes, setVch (createSmallestFormat v) = setVch v ∧
      isSmallestFormat (createSmallestFormat v) (createSmallestFormat v).length = true ∧
      (createSmallestFormatReturns v = true ↔ createSmallestFormat v ≠ v) ∧
      createSmallestFormat (createSmallestFormat v) = createSmallestFormat v ∧
      (createSmallestFormat v).reverse = minimalizeBigEndianArray v.reverse := by
  refine ⟨fun n hn hmin => ⟨?_, fun v hv => ?_⟩, fun v hlen => isSmallestFormat_iff hlen, fun v => ?_⟩
  · obtain ⟨hvalue, hsmall⟩ := serialize_smallest hn
    have hlen := length_serialize_le_eight hn hmin
    rw [ofVch, if_neg (by omega), if_neg (fun h => h.2 (isSmallestFormat_mono hsmall hlen)), hvalue]
  · obtain ⟨hvalue, hsmall⟩ := serialize_smallest hn
    have hle := length_le_of_isSmallestFormat hsmall (hvalue.trans hv.symm)
    rcases Nat.lt_or_eq_of_le hle with hlt | heq
    · exact .inr hlt
    · by_cases hzero : n = 0
      · subst hzero
        exact .inl (List.length_eq_zero_iff.mp heq.symm)
      · exact .inl (eq_of_length_eq heq.symm (hv.trans hvalue.symm) (by rw [hv]; exact hzero))
  · refine ⟨setVch_createSmallestFormat v, ?_, ?_, createSmallestFormat_idem v,
      reverse_createSmallestFormat v⟩
    · rw [isSmallestFormat_createSmallestFormat]
      exact decide_eq_true le_rfl
    · rw [createSmallestFormatReturns_eq, decide_eq_true_iff]

/-- 255 takes two bytes. -/
theorem codec_255 : ofVch (serialize 255) true 8 = .ok ⟨255⟩ :=
  (codec.1 255 (by decide) (by decide)).1

end CScriptNum
