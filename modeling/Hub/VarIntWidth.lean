/-
# Variable-length integers of a fixed width

`GetSizeOfVarInt`, `WriteVarInt` and `ReadVarInt` (`libs/utils/serialize.h`) at an unsigned type of `w`
bits: the writer goes through an array of `(w + 6) / 7` bytes, and the reader shifts and adds modulo
`2 ^ w`.

The array holds the bijective numeral of the number in base 128 (`fillTmp_eq`), and the reader undoes it
as long as the number fits (`readLoop_eq`).  `writeVarInt_toNat` connects the writer with the one of
`Hub.VarInt`, which knows of no width.
-/
import Hub.BijectiveBase
import Hub.VarInt
import Mathlib.Data.Nat.Bitwise
import Mathlib.Tactic.IntervalCases

namespace VarInt.Width

open ByteCodec

variable {w : ℕ}

/-! ## The code -/

/-- An element of `tmp`, at the index `len`. -/
def tmpByte (len : ℕ) (n : BitVec w) : UInt8 :=
  UInt8.ofNat (n &&& 0x7F).toNat ||| if len = 0 then 0x00 else 0x80

/-- The first loop of `WriteVarInt`, from the index `len` on, with `room` elements of `tmp` left; nothing
is returned when it goes past the array. -/
def fillTmp : ℕ → ℕ → BitVec w → Option (List UInt8)
  | 0, _, _ => none
  | room + 1, len, n =>
    if n ≤ 0x7F then some [tmpByte len n]
    else (fillTmp room (len + 1) ((n >>> 7) - 1)).map (tmpByte len n :: ·)

/-- `WriteVarInt`: the array goes out from its last element on. -/
def writeVarInt (n : BitVec w) : Option (List UInt8) :=
  (fillTmp ((w + 6) / 7) 0 n).map List.reverse

/-- The mask is the number 127, or every bit. -/
theorem lt_toNat_of_not_le {n : BitVec w} (h : ¬ n ≤ 0x7F) : 127 < n.toNat := by
  rw [BitVec.le_def, not_le] at h
  have hlt := n.isLt
  by_cases hw : 7 ≤ w
  · have hpow : 2 ^ 7 ≤ 2 ^ w := Nat.pow_le_pow_right (by decide) hw
    rwa [show (0x7F : BitVec w).toNat = 127 from
      (BitVec.toNat_ofNat 127 w).trans (Nat.mod_eq_of_lt (by omega))] at h
  · have hmask : (0x7F : BitVec w).toNat = 127 % 2 ^ w := BitVec.toNat_ofNat 127 w
    rw [hmask] at h
    interval_cases w <;> omega

theorem toNat_carry {n : BitVec w} (h : 127 < n.toNat) :
    ((n >>> 7) - 1).toNat = n.toNat / 128 - 1 := by
  have hlt := n.isLt
  have hshift : (n >>> 7).toNat = n.toNat / 128 := by
    rw [BitVec.toNat_ushiftRight, Nat.shiftRight_eq_div_pow]
  have hone : (1 : BitVec w).toNat = 1 :=
    (BitVec.toNat_ofNat 1 w).trans (Nat.mod_eq_of_lt (by omega))
  rw [BitVec.toNat_sub_of_le, hshift, hone]
  rw [BitVec.le_def, hshift, hone]
  omega

/-- `GetSizeOfVarInt`. -/
def getSizeOfVarInt (n : BitVec w) : ℕ :=
  if n ≤ 0x7F then 1 else getSizeOfVarInt ((n >>> 7) - 1) + 1
termination_by n.toNat
decreasing_by
  rename_i h
  have hgt := lt_toNat_of_not_le h
  rw [toNat_carry hgt]
  omega

variable {ε : Type} (endOfData : ε)

/-- The loop of `ReadVarInt`, with the number so far. -/
def readLoop : BitVec w → Reader ε (BitVec w)
  | _, [] => .error endOfData
  | n, chData :: s =>
    let n' := n <<< 7 ||| BitVec.ofNat w (chData &&& 0x7F).toNat
    if chData &&& 0x80 ≠ 0 then readLoop (n' + 1) s else .ok (n', s)

/-- `ReadVarInt`. -/
def readVarInt : Reader ε (BitVec w) := readLoop endOfData 0

variable {endOfData}

/-! ## The writer -/

/-- The bytes for the digits `ds`, of which the first stands at the index `len`. -/
def tmpBytes : ℕ → List ℕ → List UInt8
  | _, [] => []
  | len, d :: ds => UInt8.ofNat (d + if len = 0 then 0 else 128) :: tmpBytes (len + 1) ds

theorem length_tmpBytes (len : ℕ) (ds : List ℕ) : (tmpBytes len ds).length = ds.length := by
  induction ds generalizing len with
  | nil => rfl
  | cons d ds ih => rw [tmpBytes, List.length_cons, ih, List.length_cons]

theorem toNat_and_mask (hw : 7 ≤ w) (n : BitVec w) : (n &&& 0x7F).toNat = n.toNat % 128 := by
  have hpow : 2 ^ 7 ≤ 2 ^ w := Nat.pow_le_pow_right (by decide) hw
  have hmask : (0x7F : BitVec w).toNat = 2 ^ 7 - 1 :=
    (BitVec.toNat_ofNat 127 w).trans (Nat.mod_eq_of_lt (by omega))
  rw [BitVec.toNat_and, hmask, Nat.and_two_pow_sub_one_eq_mod]

theorem tmpByte_eq (hw : 7 ≤ w) (len : ℕ) (n : BitVec w) :
    tmpByte len n = UInt8.ofNat (n.toNat % 128 + if len = 0 then 0 else 128) := by
  have hlt : n.toNat % 128 < 2 ^ 7 := Nat.mod_lt _ (by decide)
  rw [tmpByte, toNat_and_mask hw]
  split_ifs
  · exact UInt8.or_zero
  · have hor := Nat.two_pow_add_eq_or_of_lt hlt 1
    rw [Nat.mul_one, Nat.add_comm, Nat.or_comm] at hor
    rw [show n.toNat % 128 + 128 = n.toNat % 128 ||| 2 ^ 7 from hor, UInt8.ofNat_or]
    rfl

theorem le_mask_iff (hw : 7 ≤ w) (n : BitVec w) : n ≤ 0x7F ↔ n.toNat < 128 := by
  have hpow : 2 ^ 7 ≤ 2 ^ w := Nat.pow_le_pow_right (by decide) hw
  rw [BitVec.le_def, show (0x7F : BitVec w).toNat = 127 from
    (BitVec.toNat_ofNat 127 w).trans (Nat.mod_eq_of_lt (by omega))]
  omega

/-- **The array** holds the numeral of the number, when there is room for it. -/
theorem fillTmp_eq (hw : 7 ≤ w) {room : ℕ} (len : ℕ) (n : BitVec w)
    (hroom : (BijectiveBase.digits 128 n.toNat).length ≤ room) :
    fillTmp room len n = some (tmpBytes len (BijectiveBase.digits 128 n.toNat)) := by
  induction room generalizing len n with
  | zero =>
    exact absurd (List.length_eq_zero_iff.mp (Nat.le_zero.mp hroom))
      (BijectiveBase.digits_ne_nil 128 n.toNat)
  | succ room ih =>
    rw [fillTmp, tmpByte_eq hw]
    by_cases hsmall : n.toNat < 128
    · rw [if_pos ((le_mask_iff hw n).mpr hsmall), BijectiveBase.digits_of_lt hsmall,
        Nat.mod_eq_of_lt hsmall]
      rfl
    · have hle := not_lt.mp hsmall
      rw [BijectiveBase.digits_of_le (by decide) hle, List.length_cons] at hroom
      rw [if_neg (fun h => hsmall ((le_mask_iff hw n).mp h)),
        BijectiveBase.digits_of_le (by decide) hle, ih, toNat_carry hle]
      · rfl
      · rw [toNat_carry hle]
        omega

/-- The array is large enough for the largest number. -/
theorem length_digits_le (n : BitVec w) (hw : 0 < w) :
    (BijectiveBase.digits 128 n.toNat).length ≤ (w + 6) / 7 := by
  have hlt : n.toNat < 128 ^ ((w + 6) / 7 - 1 + 1) := by
    calc n.toNat < 2 ^ w := n.isLt
      _ ≤ 2 ^ (7 * ((w + 6) / 7 - 1 + 1)) := Nat.pow_le_pow_right (by decide) (by omega)
      _ = 128 ^ ((w + 6) / 7 - 1 + 1) := pow_mul 2 7 _
  have hlen := BijectiveBase.length_digits_le (by decide) _ _ hlt
  omega

/-- **What the writer writes.** -/
theorem writeVarInt_eq (hw : 7 ≤ w) (n : BitVec w) :
    writeVarInt n = some (tmpBytes 0 (BijectiveBase.digits 128 n.toNat)).reverse := by
  rw [writeVarInt, fillTmp_eq hw 0 n (length_digits_le n (by omega))]
  rfl

/-- The size is the number of digits. -/
theorem getSizeOfVarInt_eq (hw : 7 ≤ w) (n : BitVec w) :
    getSizeOfVarInt n = (BijectiveBase.digits 128 n.toNat).length := by
  induction n using getSizeOfVarInt.induct with
  | case1 n h =>
    rw [getSizeOfVarInt, if_pos h, BijectiveBase.digits_of_lt ((le_mask_iff hw n).mp h)]
    rfl
  | case2 n h ih =>
    have hle := lt_toNat_of_not_le h
    rw [getSizeOfVarInt, if_neg h, ih, toNat_carry hle, BijectiveBase.digits_of_le (by decide) hle]
    rfl

/-! ## The reader -/

/-- A byte of which the high bit says that another one follows. -/
def Continues (chData : UInt8) : Prop := 128 ≤ chData.toNat

/-- All bytes but the last have the high bit. -/
structure Terminated (bytes : List UInt8) : Prop where
  ne_nil : bytes ≠ []
  more : ∀ chData ∈ bytes.dropLast, Continues chData
  last : ¬ Continues (bytes.getLast ne_nil)

/-- The digits of a sequence of bytes, least significant first. -/
def digitsOf (bytes : List UInt8) : List ℕ := (bytes.map fun chData => chData.toNat % 128).reverse

/-- The number that a sequence of bytes encodes. -/
def value (bytes : List UInt8) : ℕ := BijectiveBase.ofDigits 128 (digitsOf bytes) - 1

/-- The number after one more digit that is not the last. -/
def step (acc : ℕ) (chData : UInt8) : ℕ := acc * 128 + chData.toNat % 128 + 1

theorem foldl_step_eq (bytes : List UInt8) :
    bytes.foldl step 0 = BijectiveBase.ofDigits 128 (digitsOf bytes) := by
  rw [← BijectiveBase.foldl_reverse_eq_ofDigits, digitsOf, List.reverse_reverse, List.foldl_map]
  rfl

theorem lt_step (acc : ℕ) (chData : UInt8) : acc < step acc chData := by
  rw [step]
  omega

theorem le_foldl_step (acc : ℕ) (bytes : List UInt8) : acc ≤ bytes.foldl step acc := by
  induction bytes generalizing acc with
  | nil => exact le_refl _
  | cons chData bytes ih => exact le_trans (le_of_lt (lt_step acc chData)) (ih (step acc chData))

theorem and_high_ne_zero (chData : UInt8) : chData &&& 0x80 ≠ 0 ↔ Continues chData := by
  have hlt := chData.toNat_lt
  rw [Ne, ← UInt8.toNat_inj, UInt8.toNat_and, show (0x80 : UInt8).toNat = 2 ^ 7 from rfl,
    Nat.and_two_pow, Nat.testBit_eq_decide_div_mod_eq, Continues]
  by_cases h : 128 ≤ chData.toNat
  · rw [decide_eq_true (by omega)]
    simp [h]
  · rw [decide_eq_false (by omega)]
    simp [h]

/-- A digit that fits is shifted in. -/
theorem toNat_shift_or (n : BitVec w) (chData : UInt8)
    (h : n.toNat * 128 + chData.toNat % 128 < 2 ^ w) :
    (n <<< 7 ||| BitVec.ofNat w (chData &&& 0x7F).toNat).toNat =
      n.toNat * 128 + chData.toNat % 128 := by
  have hdigit : (chData &&& 0x7F).toNat = chData.toNat % 128 := by
    rw [UInt8.toNat_and, show (0x7F : UInt8).toNat = 2 ^ 7 - 1 from rfl,
      Nat.and_two_pow_sub_one_eq_mod]
  have hlt : chData.toNat % 128 < 2 ^ 7 := Nat.mod_lt _ (by decide)
  rw [BitVec.toNat_or, BitVec.toNat_shiftLeft, BitVec.toNat_ofNat, hdigit, Nat.shiftLeft_eq,
    Nat.mod_eq_of_lt (by omega), Nat.mod_eq_of_lt (by omega), Nat.mul_comm,
    ← Nat.two_pow_add_eq_or_of_lt hlt]

/-- **The loop of the reader**, on the bytes before the last and the last. -/
theorem readLoop_eq (endOfData : ε) {more : List UInt8} {n : BitVec w} {last : UInt8}
    (tail : List UInt8)
    (hmore : ∀ chData ∈ more, Continues chData) (hlast : ¬ Continues last)
    (hfit : (more ++ [last]).foldl step n.toNat ≤ 2 ^ w) :
    ∃ m : BitVec w, readLoop endOfData n (more ++ last :: tail) = .ok (m, tail) ∧
      m.toNat + 1 = (more ++ [last]).foldl step n.toNat := by
  induction more generalizing n with
  | nil =>
    rw [List.nil_append, List.foldl_cons, List.foldl_nil, step] at hfit
    refine ⟨n <<< 7 ||| BitVec.ofNat w (last &&& 0x7F).toNat, ?_, ?_⟩
    · rw [List.nil_append, readLoop]
      exact if_neg (fun h => hlast ((and_high_ne_zero last).mp h))
    · rw [toNat_shift_or n last (by omega), List.nil_append, List.foldl_cons, List.foldl_nil, step]
  | cons chData more ih =>
    rw [List.cons_append, List.foldl_cons] at hfit
    have hinside : step n.toNat chData < (more ++ [last]).foldl step (step n.toNat chData) := by
      rw [List.foldl_append, List.foldl_cons, List.foldl_nil]
      exact lt_of_le_of_lt (le_foldl_step _ more) (lt_step _ last)
    have hlt : step n.toNat chData < 2 ^ w := lt_of_lt_of_le hinside hfit
    have hshift := toNat_shift_or n chData (by rw [step] at hlt; omega)
    have hnext : (n <<< 7 ||| BitVec.ofNat w (chData &&& 0x7F).toNat) + 1 =
        BitVec.ofNat w (step n.toNat chData) := by
      apply BitVec.eq_of_toNat_eq
      rw [BitVec.toNat_add, hshift, show (1 : BitVec w).toNat = 1 % 2 ^ w from BitVec.toNat_ofNat 1 w,
        BitVec.toNat_ofNat, Nat.add_mod_mod, step]
    have htoNat : (BitVec.ofNat w (step n.toNat chData)).toNat = step n.toNat chData := by
      rw [BitVec.toNat_ofNat, Nat.mod_eq_of_lt hlt]
    obtain ⟨m, hrun, hvalue⟩ := ih (n := BitVec.ofNat w (step n.toNat chData))
      (fun c hc => hmore c (List.mem_cons_of_mem _ hc)) (by rw [htoNat]; exact hfit)
    refine ⟨m, ?_, ?_⟩
    · rw [List.cons_append, readLoop]
      rw [if_pos ((and_high_ne_zero chData).mpr (hmore chData List.mem_cons_self)), hnext]
      exact hrun
    · rw [hvalue, htoNat, List.cons_append, List.foldl_cons]

/-! ## One encoding -/

theorem digitsOf_lt (bytes : List UInt8) : ∀ d ∈ digitsOf bytes, d < 128 := by
  intro d hd
  obtain ⟨chData, -, rfl⟩ := List.mem_map.mp (List.mem_reverse.mp hd)
  exact Nat.mod_lt _ (by decide)

theorem digitsOf_ne_nil {bytes : List UInt8} (h : bytes ≠ []) : digitsOf bytes ≠ [] := by
  rw [digitsOf, Ne, List.reverse_eq_nil_iff, List.map_eq_nil_iff]
  exact h

/-- The array for the digits of a sequence of bytes holds these bytes. -/
theorem tmpBytes_of_continues {len : ℕ} (hlen : len ≠ 0) {bytes : List UInt8}
    (h : ∀ chData ∈ bytes, Continues chData) :
    tmpBytes len (bytes.map fun chData => chData.toNat % 128) = bytes := by
  induction bytes generalizing len with
  | nil => rfl
  | cons chData bytes ih =>
    have hhigh : 128 ≤ chData.toNat := h chData List.mem_cons_self
    have hlt := chData.toNat_lt
    rw [List.map_cons, tmpBytes, if_neg hlen,
      ih (Nat.succ_ne_zero len) (fun c hc => h c (List.mem_cons_of_mem _ hc)),
      show chData.toNat % 128 + 128 = chData.toNat from by omega, UInt8.ofNat_toNat]

theorem Terminated.split {bytes : List UInt8} (h : Terminated bytes) :
    bytes.dropLast ++ [bytes.getLast h.ne_nil] = bytes := List.dropLast_append_getLast h.ne_nil

theorem Terminated.tmpBytes_digitsOf {bytes : List UInt8} (h : Terminated bytes) :
    (tmpBytes 0 (digitsOf bytes)).reverse = bytes := by
  have hlast : (bytes.getLast h.ne_nil).toNat < 128 := not_le.mp h.last
  have hdigits : digitsOf bytes = (bytes.getLast h.ne_nil).toNat ::
      bytes.dropLast.reverse.map fun chData => chData.toNat % 128 := by
    conv_lhs => rw [← h.split]
    rw [digitsOf, List.map_append, List.reverse_append, List.map_singleton, List.reverse_singleton,
      List.singleton_append, Nat.mod_eq_of_lt hlast, List.map_reverse]
  rw [hdigits, tmpBytes, if_pos rfl, Nat.add_zero, UInt8.ofNat_toNat, List.reverse_cons,
    tmpBytes_of_continues Nat.one_ne_zero, List.reverse_reverse, h.split]
  intro chData hmem
  exact h.more chData (List.mem_reverse.mp hmem)

theorem toNat_ofNat_of_lt {n : ℕ} (h : n < 256) : (UInt8.ofNat n).toNat = n :=
  UInt8.toNat_ofNat_of_lt' h

theorem mem_tmpBytes {len : ℕ} (hlen : len ≠ 0) {ds : List ℕ} (hlt : ∀ d ∈ ds, d < 128) :
    ∀ chData ∈ tmpBytes len ds, Continues chData := by
  induction ds generalizing len with
  | nil =>
    intro chData h
    cases h
  | cons d ds ih =>
    intro chData h
    rw [tmpBytes, if_neg hlen] at h
    rcases List.mem_cons.mp h with rfl | h
    · have hd := hlt d List.mem_cons_self
      rw [Continues, toNat_ofNat_of_lt (by omega)]
      omega
    · exact ih (Nat.succ_ne_zero len) (fun e he => hlt e (List.mem_cons_of_mem _ he)) chData h

theorem map_tmpBytes {len : ℕ} {ds : List ℕ} (hlt : ∀ d ∈ ds, d < 128) :
    (tmpBytes len ds).map (fun chData => chData.toNat % 128) = ds := by
  induction ds generalizing len with
  | nil => rfl
  | cons d ds ih =>
    have hd := hlt d List.mem_cons_self
    rw [tmpBytes, List.map_cons, ih (fun e he => hlt e (List.mem_cons_of_mem _ he))]
    congr 1
    split_ifs
    · rw [toNat_ofNat_of_lt (by omega), Nat.add_zero, Nat.mod_eq_of_lt hd]
    · rw [toNat_ofNat_of_lt (by omega), Nat.add_mod_right, Nat.mod_eq_of_lt hd]

/-- What the writer writes is terminated. -/
theorem terminated_tmpBytes {ds : List ℕ} (hne : ds ≠ []) (hlt : ∀ d ∈ ds, d < 128) :
    Terminated (tmpBytes 0 ds).reverse := by
  cases ds with
  | nil => exact absurd rfl hne
  | cons d ds =>
    have hd := hlt d List.mem_cons_self
    rw [tmpBytes, if_pos rfl, Nat.add_zero, List.reverse_cons]
    constructor
    · intro chData h
      rw [List.dropLast_concat] at h
      exact mem_tmpBytes Nat.one_ne_zero (fun e he => hlt e (List.mem_cons_of_mem _ he)) chData
        (List.mem_reverse.mp h)
    · rw [List.getLast_append_singleton, Continues, toNat_ofNat_of_lt (by omega)]
      omega

/-- **The reader on a terminated sequence** whose value fits. -/
theorem Terminated.readVarInt_eq (endOfData : ε) {bytes : List UInt8} (h : Terminated bytes)
    (hfit : value bytes < 2 ^ w) (tail : List UInt8) :
    ∃ n : BitVec w, readVarInt endOfData (bytes ++ tail) = .ok (n, tail) ∧
      n.toNat = value bytes := by
  have hvalue := foldl_step_eq bytes
  rw [← h.split] at hvalue
  rw [value] at hfit
  obtain ⟨n, hrun, hn⟩ := readLoop_eq (w := w) (n := 0) endOfData tail h.more h.last
    (by
      rw [show (0 : BitVec w).toNat = 0 from BitVec.toNat_zero, hvalue, h.split]
      omega)
  refine ⟨n, ?_, ?_⟩
  · rw [readVarInt]
    conv_lhs => rw [← h.split, List.append_assoc, List.singleton_append]
    exact hrun
  · rw [show (0 : BitVec w).toNat = 0 from BitVec.toNat_zero, hvalue, h.split] at hn
    rw [value]
    omega

/-- **One encoding**: a terminated sequence is what the writer writes for its value. -/
theorem Terminated.writeVarInt_eq {bytes : List UInt8} (h : Terminated bytes) (hw : 7 ≤ w)
    {n : BitVec w} (hn : n.toNat = value bytes) : writeVarInt n = some bytes := by
  rw [Width.writeVarInt_eq hw, hn, value,
    BijectiveBase.digits_ofDigits (digitsOf_ne_nil h.ne_nil) (digitsOf_lt bytes), h.tmpBytes_digitsOf]

theorem value_tmpBytes {ds : List ℕ} (hlt : ∀ d ∈ ds, d < 128) :
    value (tmpBytes 0 ds).reverse = BijectiveBase.ofDigits 128 ds - 1 := by
  rw [value, digitsOf, List.map_reverse, List.reverse_reverse, map_tmpBytes hlt]

/-- What holds of the numbers of `w` bits and of the sequences of bytes that encode them. -/
structure OneEncoding (w : ℕ) : Prop where
  write_read : ∀ {ε : Type} (endOfData : ε) (n : BitVec w), ∃ bytes, writeVarInt n = some bytes ∧
    bytes.length = getSizeOfVarInt n ∧ bytes.length ≤ (w + 6) / 7 ∧
    ∀ tail, readVarInt endOfData (bytes ++ tail) = .ok (n, tail)
  read_write : ∀ {ε : Type} (endOfData : ε) (bytes : List UInt8), Terminated bytes →
    value bytes < 2 ^ w → ∃ n : BitVec w, n.toNat = value bytes ∧ writeVarInt n = some bytes ∧
    ∀ tail, readVarInt endOfData (bytes ++ tail) = .ok (n, tail)

theorem oneEncoding_of_le (hw : 7 ≤ w) : OneEncoding w := by
  constructor
  · intro ε endOfData n
    set ds := BijectiveBase.digits 128 n.toNat with hds
    have hlt : ∀ d ∈ ds, d < 128 := BijectiveBase.lt_of_mem_digits (by decide) n.toNat
    have hterm := terminated_tmpBytes (BijectiveBase.digits_ne_nil 128 n.toNat) hlt
    have hvalue : value (tmpBytes 0 ds).reverse = n.toNat := by
      rw [value_tmpBytes hlt, hds, BijectiveBase.ofDigits_digits (by decide), Nat.add_sub_cancel]
    refine ⟨(tmpBytes 0 ds).reverse, writeVarInt_eq hw n, ?_, ?_, ?_⟩
    · rw [List.length_reverse, length_tmpBytes, getSizeOfVarInt_eq hw]
    · rw [List.length_reverse, length_tmpBytes]
      exact length_digits_le n (by omega)
    · intro tail
      obtain ⟨m, hrun, hm⟩ := hterm.readVarInt_eq endOfData
        (by rw [hvalue]; exact n.isLt) tail
      rw [hrun, BitVec.eq_of_toNat_eq (hm.trans hvalue)]
  · intro ε endOfData bytes hterm hfit
    have htoNat : (BitVec.ofNat w (value bytes)).toNat = value bytes := by
      rw [BitVec.toNat_ofNat, Nat.mod_eq_of_lt hfit]
    refine ⟨BitVec.ofNat w (value bytes), htoNat, hterm.writeVarInt_eq hw htoNat, ?_⟩
    intro tail
    obtain ⟨n, hrun, hn⟩ := hterm.readVarInt_eq endOfData hfit tail
    rw [hrun, BitVec.eq_of_toNat_eq (hn.trans htoNat.symm)]

/-- **Every number of 32 or 64 bits has one encoding.** -/
theorem oneEncoding : OneEncoding 32 ∧ OneEncoding 64 := by
  constructor
  · exact oneEncoding_of_le (by decide)
  · exact oneEncoding_of_le (by decide)

example : writeVarInt (0xFFFFFFFF : BitVec 32) = some [0x8E, 0xFE, 0xFE, 0xFE, 0x7F] := by decide

/-! ## The writer without a width -/

theorem writeLoop_eq (fuel : ℕ) (n : ℕ) (out : List UInt8) (h : n < fuel) :
    writeLoop fuel n out =
      (tmpBytes out.length (BijectiveBase.digits 128 n)).reverse ++ out := by
  induction fuel generalizing n out with
  | zero => omega
  | succ fuel ih =>
    have hempty : (if out = [] then 0 else 128) = if out.length = 0 then 0 else 128 := by
      simp only [List.length_eq_zero_iff]
    rw [writeLoop, hempty]
    by_cases hsmall : n ≤ 127
    · rw [if_pos hsmall, BijectiveBase.digits_of_lt (by omega), Nat.mod_eq_of_lt (by omega)]
      rfl
    · rw [if_neg hsmall, ih _ _ (by omega), BijectiveBase.digits_of_le (n := n) (by decide) (by omega),
        tmpBytes, List.reverse_cons, List.append_assoc, List.singleton_append, List.length_cons]

/-- The writer of a width writes what the one without a width writes. -/
theorem writeVarInt_toNat (hw : 7 ≤ w) (n : BitVec w) :
    writeVarInt n = some (VarInt.writeVarInt n.toNat) := by
  rw [writeVarInt_eq hw, VarInt.writeVarInt, writeLoop_eq _ _ _ (Nat.lt_succ_self _),
    List.append_nil]
  rfl

end VarInt.Width
