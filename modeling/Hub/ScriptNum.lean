/-
# Script numbers

`CScriptNum` (`libs/server/script/script.h`, `script.cpp`): an integer of 64 bits that is
written to the stack of a script as bytes, least significant first, with the sign in the
highest bit of the last byte.

A vector is the list of its bytes; `back` is its last one.  The shifts and masks of
`set_vch` put bytes at places where nothing else stands, so its result is the number
`leNat` that the bytes spell, less the bit of the sign.

* `length_serialize_le` : a number takes nine bytes at most;
* `natAbs_setVch_lt` : `k` bytes give a number below `2 ^ (8 * k - 1)`;
* `serialize_singleton` : the numbers that are written as a single byte.
-/
import Hub.ByteCodec

open ByteCodec

/-- `valtype`: a byte vector. -/
abbrev Bytes := List UInt8

namespace Bytes

/-- `vch.back()`. -/
def back (v : Bytes) : UInt8 := v.getLastD 0

/-- `vch.back() = b`. -/
def setBack (v : Bytes) (b : UInt8) : Bytes := v.dropLast ++ [b]

@[simp] theorem back_append_singleton (v : Bytes) (b : UInt8) : back (v ++ [b]) = b := by
  simp [back]

@[simp] theorem length_setBack {v : Bytes} (b : UInt8) (h : v ≠ []) :
    (setBack v b).length = v.length := by
  have hpos : 0 < v.length := List.length_pos_iff.mpr h
  simp [setBack]
  omega

end Bytes

open Bytes

/-- What holds of all bytes can be decided byte by byte. -/
instance decidableForallByte (p : UInt8 → Prop) [DecidablePred p] : Decidable (∀ b, p b) :=
  decidable_of_iff (∀ n : Fin 256, p (UInt8.ofNat n))
    ⟨fun h b => by simpa using h ⟨b.toNat, b.toNat_lt⟩, fun h _ => h _⟩

/-- The highest bit of a byte. -/
theorem and_signbit_eq_zero (b : UInt8) : b &&& 0x80 = 0 ↔ b.toNat < 128 := by
  revert b
  decide +kernel

/-- `CScriptNum`. -/
structure CScriptNum where
  m_value : ℤ
  deriving DecidableEq

namespace CScriptNum

/-- The numbers that an `int64_t` holds. -/
def InInt64 (n : ℤ) : Prop := -2 ^ 63 ≤ n ∧ n < 2 ^ 63

instance (n : ℤ) : Decidable (InInt64 n) := inferInstanceAs (Decidable (_ ∧ _))

/-! ## Writing -/

/-- The loop of `serialize`: the bytes of `absvalue`, without zeros at the end.  A number of
64 bits is gone after eight rounds. -/
def magnitude : ℕ → ℕ → Bytes
  | 0, _ => []
  | k + 1, absvalue =>
    if absvalue = 0 then []
    else UInt8.ofNat absvalue :: magnitude k (absvalue / 256)

/-- The end of `serialize`: the sign goes into the highest bit of the last byte, or into a byte
of its own when that bit is taken. -/
def withSign (neg : Bool) (result : Bytes) : Bytes :=
  if back result &&& 0x80 ≠ 0 then result ++ [if neg then 0x80 else 0]
  else if neg then setBack result (back result ||| 0x80)
  else result

/-- `CScriptNum::serialize`. -/
def serialize (value : ℤ) : Bytes :=
  if value = 0 then [] else withSign (value < 0) (magnitude 8 value.natAbs)

/-- `CScriptNum::getvch`. -/
def getvch (n : CScriptNum) : Bytes := serialize n.m_value

theorem length_magnitude_le (k a : ℕ) : (magnitude k a).length ≤ k := by
  induction k generalizing a with
  | zero => exact Nat.zero_le _
  | succ k ih =>
    rw [magnitude]
    split_ifs with h
    · exact Nat.zero_le _
    · exact Nat.succ_le_succ (ih _)

theorem magnitude_ne_nil {k a : ℕ} (hk : k ≠ 0) (ha : a ≠ 0) : magnitude k a ≠ [] := by
  obtain ⟨k, rfl⟩ := Nat.exists_eq_succ_of_ne_zero hk
  rw [magnitude, if_neg ha]
  exact List.cons_ne_nil _ _

theorem length_withSign {neg : Bool} {result : Bytes} (h : result ≠ []) :
    (withSign neg result).length
      = if back result &&& 0x80 = 0 then result.length else result.length + 1 := by
  unfold withSign
  by_cases hbit : back result &&& 0x80 = 0
  · rw [if_neg (not_not.mpr hbit), if_pos hbit]
    split_ifs
    · exact length_setBack _ h
    · rfl
  · rw [if_pos hbit, if_neg hbit, List.length_append, List.length_singleton]

theorem length_serialize {value : ℤ} (h : value ≠ 0) :
    (serialize value).length
      = if back (magnitude 8 value.natAbs) &&& 0x80 = 0 then (magnitude 8 value.natAbs).length
        else (magnitude 8 value.natAbs).length + 1 := by
  rw [serialize, if_neg h]
  exact length_withSign (magnitude_ne_nil (by omega) (by omega))

/-- A number takes nine bytes at most. -/
theorem length_serialize_le (value : ℤ) : (serialize value).length ≤ 9 := by
  by_cases h : value = 0
  · rw [h]
    decide
  · have hlen := length_magnitude_le 8 value.natAbs
    rw [length_serialize h]
    split_ifs <;> omega

/-- **The numbers of a single byte.**  A number that is written as one byte is below 128, and
the byte is the number, with the highest bit set when it is negative. -/
theorem serialize_singleton {value : ℤ} {b : UInt8} (h : serialize value = [b]) :
    value.natAbs < 128 ∧
      b = (if value < 0 then UInt8.ofNat value.natAbs ||| 0x80
        else UInt8.ofNat value.natAbs) := by
  have hne : value ≠ 0 := by
    rintro rfl
    cases h
  have habs : value.natAbs ≠ 0 := by omega
  have hlen := length_serialize hne
  rw [h, List.length_singleton] at hlen
  have hmag : magnitude 8 value.natAbs
      = UInt8.ofNat value.natAbs :: magnitude 7 (value.natAbs / 256) := by
    rw [magnitude, if_neg habs]
  -- a second byte of the magnitude stays there
  have hsmall : value.natAbs < 256 := by
    by_contra hlarge
    have hrest : 0 < (magnitude 7 (value.natAbs / 256)).length :=
      List.length_pos_iff.mpr (magnitude_ne_nil (by omega) (by omega))
    rw [hmag, List.length_cons] at hlen
    split_ifs at hlen <;> omega
  rw [Nat.div_eq_of_lt hsmall] at hmag
  change magnitude 8 value.natAbs = [UInt8.ofNat value.natAbs] at hmag
  rw [hmag] at hlen
  have hback : back [UInt8.ofNat value.natAbs] = UInt8.ofNat value.natAbs := rfl
  rw [hback, List.length_singleton] at hlen
  have hbit : UInt8.ofNat value.natAbs &&& 0x80 = 0 := by
    by_contra hbit
    rw [if_neg hbit] at hlen
    omega
  constructor
  · have hlow := (and_signbit_eq_zero _).mp hbit
    rwa [UInt8.toNat_ofNat', Nat.mod_eq_of_lt hsmall] at hlow
  · rw [serialize, if_neg hne, hmag, withSign, hback, if_neg (not_not.mpr hbit)] at h
    by_cases hneg : value < 0
    · rw [if_pos (decide_eq_true hneg)] at h
      rw [if_pos hneg]
      simpa [setBack] using h.symm
    · rw [if_neg (by simpa using hneg)] at h
      rw [if_neg hneg]
      simpa using h.symm

/-! ## Reading -/

/-- `CScriptNum::set_vch`. -/
def setVch (vch : Bytes) : ℤ :=
  if vch = [] then 0
  else if back vch &&& 0x80 ≠ 0 then -((leNat vch - 0x80 * 256 ^ (vch.length - 1) : ℕ) : ℤ)
  else leNat vch

/-- `CScriptNum::isSmallestFormat`. -/
def isSmallestFormat (vch : Bytes) (nMaxNumSize : ℕ) : Bool :=
  if vch.length > nMaxNumSize then false
  else if vch.length > 0 then
    if back vch &&& 0x7f = 0 then
      if vch.length ≤ 1 ∨ vch.getD (vch.length - 2) 0 &&& 0x80 = 0 then false
      else true
    else true
  else true

/-- The loop of `createSmallestFormat`, at position `i`: what is left of `data` when the bytes
from `i` on, the last one apart, are zero. -/
def trim (data : Bytes) (last : UInt8) : ℕ → Bytes
  | 0 => []
  | i + 1 =>
    if data.getD i 0 ≠ 0 then
      if data.getD i 0 &&& 0x80 ≠ 0 then (data.set (i + 1) last).take (i + 2)
      else (data.set i (data.getD i 0 ||| last)).take (i + 1)
    else trim data last i

/-- `CScriptNum::createSmallestFormat`: the vector that it leaves. -/
def createSmallestFormat (data : Bytes) : Bytes :=
  if data = [] then data
  else if back data &&& 0x7f ≠ 0 then data
  else if data.length = 1 then []
  else if data.getD (data.length - 2) 0 &&& 0x80 ≠ 0 then data
  else trim data (back data) (data.length - 1)

/-- `CScriptNum::getint`. -/
def getint (n : CScriptNum) : ℤ :=
  if n.m_value > 2 ^ 31 - 1 then 2 ^ 31 - 1
  else if n.m_value < -2 ^ 31 then -2 ^ 31
  else n.m_value

theorem length_trim_le (data : Bytes) (last : UInt8) (i : ℕ) :
    (trim data last i).length ≤ data.length := by
  induction i with
  | zero => exact Nat.zero_le _
  | succ i ih =>
    rw [trim]
    split_ifs
    · rw [List.length_take, List.length_set]
      exact min_le_right _ _
    · rw [List.length_take, List.length_set]
      exact min_le_right _ _
    · exact ih

/-- The smallest form is no longer than what it stands for. -/
theorem length_createSmallestFormat_le (data : Bytes) :
    (createSmallestFormat data).length ≤ data.length := by
  unfold createSmallestFormat
  split_ifs
  · exact le_rfl
  · exact le_rfl
  · exact Nat.zero_le _
  · exact le_rfl
  · exact length_trim_le _ _ _

theorem leNat_lt (vch : Bytes) : leNat vch < 256 ^ vch.length := by
  induction vch with
  | nil => exact Nat.one_pos
  | cons b bs ih =>
    have hb : b.toNat < 256 := b.toNat_lt
    rw [leNat, List.length_cons, pow_succ]
    omega

theorem leNat_append (v w : Bytes) : leNat (v ++ w) = leNat v + 256 ^ v.length * leNat w := by
  induction v with
  | nil => simp [leNat]
  | cons b bs ih =>
    rw [List.cons_append, leNat, leNat, ih, List.length_cons, pow_succ]
    ring

/-- **The range of a number.**  `k` bytes give a number below `2 ^ (8 * k - 1)`. -/
theorem natAbs_setVch_lt {vch : Bytes} {k : ℕ} (hk : vch.length ≤ k) (hpos : 0 < k) :
    (setVch vch).natAbs < 128 * 256 ^ (k - 1) := by
  by_cases hnil : vch = []
  · rw [setVch, if_pos hnil]
    exact Nat.mul_pos (by omega) (Nat.pos_of_ne_zero (by simp))
  · obtain ⟨v, b, rfl⟩ : ∃ v b, vch = v ++ [b] :=
      ⟨vch.dropLast, vch.getLast hnil, (List.dropLast_append_getLast hnil).symm⟩
    have hv := leNat_lt v
    have hb : b.toNat < 256 := b.toNat_lt
    have hmono : 256 ^ v.length ≤ 256 ^ (k - 1) :=
      Nat.pow_le_pow_right (by omega) (by simp at hk; omega)
    have hval : leNat (v ++ [b]) = leNat v + 256 ^ v.length * b.toNat := by
      rw [leNat_append]
      simp [leNat]
    rw [setVch, if_neg hnil]
    simp only [back_append_singleton, hval, List.length_append, List.length_singleton,
      Nat.add_sub_cancel]
    generalize 256 ^ v.length = p at *
    by_cases hbit : b &&& 0x80 = 0
    · -- no sign: the last byte is below 128
      have hlow := (and_signbit_eq_zero b).mp hbit
      rw [if_neg (not_not.mpr hbit)]
      have : p * b.toNat ≤ p * 127 := Nat.mul_le_mul_left _ (by omega)
      omega
    · rw [if_pos hbit]
      have : p * b.toNat ≤ p * 255 := Nat.mul_le_mul_left _ (by omega)
      omega

end CScriptNum
