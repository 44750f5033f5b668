/-
# The grammar of signatures

`IsValidSignatureEncoding` (`libs/server/script/interpreter.cpp`) tests one byte after the other,
at places that depend on the lengths that it has read.  What it accepts is one grammar, `Signature`:
two integers in the shortest two's complement form, which are not negative, with their lengths, the
length of the whole before them and the hash type after them (`isValidSignatureEncoding_iff`).
-/
import Hub.ScriptSafety
import Mathlib.Algebra.Order.Ring.Int
import Mathlib.Tactic.Positivity

open Bytes

namespace Script

/-! ## Integers -/

/-- The number that the bytes spell, most significant byte first. -/
def beNat : Bytes → ℕ
  | [] => 0
  | b :: bs => b.toNat * 256 ^ bs.length + beNat bs

/-- The number in two's complement. -/
def beInt : Bytes → ℤ
  | [] => 0
  | b :: bs => (if b.toNat < 128 then b.toNat else b.toNat - 256 : ℤ) * 256 ^ bs.length + beNat bs

/-- A shortest encoding of a number that is not negative. -/
def IsDerInteger (R : Bytes) : Prop :=
  R ≠ [] ∧ 0 ≤ beInt R ∧ ∀ R', R' ≠ [] → beInt R' = beInt R → R.length ≤ R'.length

/-- What is tested of an integer. -/
def IntegerTest (R : Bytes) : Prop :=
  R ≠ [] ∧ R.getD 0 0 &&& 0x80 = 0 ∧
    ¬ (1 < R.length ∧ R.getD 0 0 = 0 ∧ R.getD 1 0 &&& 0x80 = 0)

theorem beNat_lt (bs : Bytes) : beNat bs < 256 ^ bs.length := by
  induction bs with
  | nil => exact Nat.one_pos
  | cons b bs ih =>
    have hb := b.toNat_lt
    have hmul : b.toNat * 256 ^ bs.length ≤ 255 * 256 ^ bs.length :=
      Nat.mul_le_mul_right _ (by omega)
    rw [beNat, List.length_cons, pow_succ]
    omega

theorem beInt_of_low {b : UInt8} (bs : Bytes) (h : b &&& 0x80 = 0) :
    beInt (b :: bs) = (beNat (b :: bs) : ℕ) := by
  rw [beInt, if_pos ((and_signbit_eq_zero b).mp h), beNat]
  push_cast
  rfl

theorem beInt_neg {b : UInt8} (bs : Bytes) (h : b &&& 0x80 ≠ 0) : beInt (b :: bs) < 0 := by
  have hhigh : ¬ b.toNat < 128 := fun hlt => h ((and_signbit_eq_zero b).mpr hlt)
  have hb := b.toNat_lt
  have hlt := beNat_lt bs
  have hmul : (b.toNat - 256 : ℤ) * 256 ^ bs.length ≤ -1 * 256 ^ bs.length :=
    mul_le_mul_of_nonneg_right (by omega) (by positivity)
  have hcast : ((beNat bs : ℕ) : ℤ) < 256 ^ bs.length := by exact_mod_cast hlt
  rw [beInt, if_neg hhigh]
  omega

/-- A number is below the half of what its bytes could hold. -/
theorem beInt_lt (c : UInt8) (cs : Bytes) : beInt (c :: cs) < 128 * 256 ^ cs.length := by
  by_cases hc : c &&& 0x80 = 0
  · have hlow := (and_signbit_eq_zero c).mp hc
    have hlt := beNat_lt cs
    have hmul : c.toNat * 256 ^ cs.length ≤ 127 * 256 ^ cs.length :=
      Nat.mul_le_mul_right _ (by omega)
    have hnat : beNat (c :: cs) < 128 * 256 ^ cs.length := by
      rw [beNat]
      omega
    rw [beInt_of_low cs hc]
    exact_mod_cast hnat
  · have hpos : (0 : ℤ) < 128 * 256 ^ cs.length := by positivity
    exact (beInt_neg cs hc).trans hpos

/-- **The test is for the shortest encodings** of numbers that are not negative. -/
theorem integerTest_iff (R : Bytes) : IntegerTest R ↔ IsDerInteger R := by
  cases R with
  | nil => exact ⟨fun h => absurd rfl h.1, fun h => absurd rfl h.1⟩
  | cons b bs =>
    constructor
    · rintro ⟨hne, htop, hnull⟩
      have hlow : b &&& 0x80 = 0 := htop
      refine ⟨hne, by rw [beInt_of_low bs hlow]; omega, ?_⟩
      rintro (_ | ⟨c, cs⟩) hne' heq
      · exact absurd rfl hne'
      · by_contra hlen
        rw [List.length_cons, List.length_cons] at hlen
        -- the first byte, or the second one, is too large for fewer bytes
        cases bs with
        | nil =>
          rw [List.length_nil] at hlen
          omega
        | cons d ds =>
          rw [List.length_cons] at hlen
          have hlt := beInt_lt c cs
          have hmono : 256 ^ cs.length ≤ 256 ^ ds.length := Nat.pow_le_pow_right (by omega) (by omega)
          have hlarge : 128 * 256 ^ ds.length ≤ beNat (b :: d :: ds) := by
            rw [beNat, beNat, List.length_cons, pow_succ]
            by_cases hb : b = 0
            · have hd : ¬ d &&& 0x80 = 0 := fun hd => hnull ⟨by simp, hb, hd⟩
              have hd' : 128 ≤ d.toNat := by
                rw [and_signbit_eq_zero] at hd
                omega
              have hmul : 128 * 256 ^ ds.length ≤ d.toNat * 256 ^ ds.length :=
                Nat.mul_le_mul_right _ hd'
              omega
            · have hpos : 1 ≤ b.toNat := Nat.pos_of_ne_zero fun h => hb (UInt8.toNat_inj.mp h)
              have hmul : 1 * (256 ^ ds.length * 256) ≤ b.toNat * (256 ^ ds.length * 256) :=
                Nat.mul_le_mul_right _ hpos
              omega
          rw [heq, beInt_of_low _ hlow] at hlt
          have hlt : beNat (b :: d :: ds) < 128 * 256 ^ cs.length := by exact_mod_cast hlt
          omega
    · rintro ⟨hne, hnonneg, hleast⟩
      have hlow : b &&& 0x80 = 0 := by
        by_contra hneg
        exact absurd (beInt_neg bs hneg) (not_lt.mpr hnonneg)
      refine ⟨hne, hlow, ?_⟩
      rintro ⟨hlen, hb, hd⟩
      cases bs with
      | nil => simp at hlen
      | cons d ds =>
        have hb : b = 0 := hb
        have hd : d &&& 0x80 = 0 := hd
        -- without the zero it is shorter
        have hvalue : beInt (d :: ds) = beInt (b :: d :: ds) := by
          rw [beInt_of_low ds hd, beInt_of_low _ hlow, hb, beNat.eq_def (0 :: d :: ds)]
          simp
        have hle := hleast (d :: ds) (List.cons_ne_nil d ds) hvalue
        simp at hle

/-! ## Signatures -/

/-- A signature: the compound of two integers, and the hash type. -/
structure Signature where
  R : Bytes
  S : Bytes
  hashType : UInt8
  isDerInteger_R : IsDerInteger R
  isDerInteger_S : IsDerInteger S

namespace Signature

/-- `0x30 [total-length] 0x02 [R-length] [R] 0x02 [S-length] [S] [sighash]`. -/
def encode (s : Signature) : Bytes :=
  0x30 :: UInt8.ofNat (4 + s.R.length + s.S.length) :: 0x02 :: UInt8.ofNat s.R.length ::
    (s.R ++ 0x02 :: UInt8.ofNat s.S.length :: (s.S ++ [s.hashType]))

end Signature

/-! ## What is accepted -/

theorem ite_false_eq_true {c : Prop} [Decidable c] {x : Option Bool} :
    (if c then some false else x) = some true ↔ ¬ c ∧ x = some true := by
  split_ifs with h
  · simp [h]
  · simp [h]

theorem bind_null_eq_true {o x : Option Bool} :
    (o.bind fun null => if null then some false else x) = some true ↔ o = some false ∧ x = some true := by
  cases o with
  | none => simp
  | some null => cases null <;> simp

theorem map_not_eq_true {o : Option Bool} : o.map (fun null => !null) = some true ↔ o = some false := by
  cases o with
  | none => simp
  | some null => cases null <;> simp

/-- An element of the middle part. -/
theorem getElem?_middle {pre R post : Bytes} {i j : ℕ} (hi : i = pre.length + j) (hj : j < R.length) :
    (pre ++ (R ++ post))[i]? = some (R.getD j 0) := by
  have hlt : j < (R ++ post).length := by
    rw [List.length_append]
    omega
  rw [hi, List.getElem?_append_right (by omega), Nat.add_sub_cancel_left,
    List.getElem?_append_left hj, List.getD_eq_getElem?_getD, List.getElem?_eq_getElem hj]
  rfl

/-- The tests of an integer that stands in the middle. -/
theorem integer_tests (pre R post : Bytes) {i : ℕ} (hi : i = pre.length) :
    ((¬ R.length = 0) ∧ ∃ b, (pre ++ (R ++ post))[i]? = some b ∧ ¬ b &&& 0x80 ≠ 0 ∧
      hasNullStart (pre ++ (R ++ post)) R.length i = some false) ↔ IntegerTest R := by
  by_cases hnil : R = []
  · subst hnil
    exact ⟨fun h => absurd rfl h.1, fun h => absurd rfl h.1⟩
  · have hpos := List.length_pos_iff.mpr hnil
    have hfirst : (pre ++ (R ++ post))[i]? = some (R.getD 0 0) := getElem?_middle (by omega) hpos
    have hnull : hasNullStart (pre ++ (R ++ post)) R.length i = some false ↔
        ¬ (1 < R.length ∧ R.getD 0 0 = 0 ∧ R.getD 1 0 &&& 0x80 = 0) := by
      unfold hasNullStart
      by_cases hlen : R.length > 1
      · have hsecond : (pre ++ (R ++ post))[i + 1]? = some (R.getD 1 0) :=
          getElem?_middle (by omega) hlen
        rw [if_pos hlen, hfirst, hsecond, Option.bind_some, Option.map_some]
        by_cases hzero : R.getD 0 0 = 0x00
        · rw [if_pos hzero, Option.some_inj]
          simp only [hlen, hzero, true_and, beq_eq_false_iff_ne, ne_eq]
        · rw [if_neg hzero]
          simp only [hzero, false_and, and_false, not_false_eq_true]
      · rw [if_neg hlen]
        simp only [hlen, false_and, not_false_eq_true]
    rw [hnull, hfirst, IntegerTest]
    constructor
    · rintro ⟨-, b, hb, hbit, htest⟩
      cases hb
      exact ⟨hnil, not_not.mp hbit, htest⟩
    · rintro ⟨-, hbit, htest⟩
      exact ⟨by omega, _, rfl, not_not.mpr hbit, htest⟩

/-- **The tests**, for a vector whose parts have the lengths that it says. -/
theorem isValidSignatureEncoding_of_parts {a₀ a₁ a₂ a₃ x y t : UInt8} {R S sig : Bytes}
    (hsig : sig = a₀ :: a₁ :: a₂ :: a₃ :: (R ++ x :: y :: (S ++ [t])))
    (hR : a₃.toNat = R.length) (hS : y.toNat = S.length) :
    isValidSignatureEncoding sig = some true ↔ (9 ≤ sig.length ∧ sig.length ≤ 73) ∧ a₀ = 0x30 ∧
      a₁.toNat = 4 + R.length + S.length ∧ a₂ = 0x02 ∧ x = 0x02 ∧ IntegerTest R ∧ IntegerTest S := by
  have hlen : sig.length = R.length + S.length + 7 := by
    rw [hsig]
    simp
    omega
  have h₀ : sig[0]? = some a₀ := by rw [hsig]; rfl
  have h₁ : sig[1]? = some a₁ := by rw [hsig]; rfl
  have h₂ : sig[2]? = some a₂ := by rw [hsig]; rfl
  have h₃ : sig[3]? = some a₃ := by rw [hsig]; rfl
  have hparts : sig = [a₀, a₁, a₂, a₃] ++ (R ++ x :: y :: (S ++ [t])) := hsig
  have hparts' : sig = ([a₀, a₁, a₂, a₃] ++ R ++ [x, y]) ++ (S ++ [t]) := by
    rw [hparts]
    simp
  have hx : sig[R.length + 4]? = some x := by
    rw [hparts, List.getElem?_append_right (by simp), List.getElem?_append_right (by simp)]
    simp
  have hy : sig[5 + R.length]? = some y := by
    rw [hparts, List.getElem?_append_right (by simp; omega),
      List.getElem?_append_right (by simp; omega)]
    have hone : 5 + R.length - [a₀, a₁, a₂, a₃].length - R.length = 1 := by
      simp
      omega
    rw [hone]
    rfl
  have htestR := integer_tests [a₀, a₁, a₂, a₃] R (x :: y :: (S ++ [t])) (i := 4) rfl
  have htestS := integer_tests ([a₀, a₁, a₂, a₃] ++ R ++ [x, y]) S [t] (i := R.length + 6) (by simp)
  rw [← hparts] at htestR
  rw [← hparts'] at htestS
  rw [← htestR, ← htestS]
  unfold isValidSignatureEncoding areValidIntegers
  simp only [h₀, h₁, h₂, h₃, hR, hx, hy, hS, Option.bind_some, ite_false_eq_true]
  -- the integers
  have hbindR : ∀ {z : Option Bool}, (sig[4]?.bind fun a => if a &&& 0x80 ≠ 0 then some false
      else (hasNullStart sig R.length 4).bind fun null => if null then some false else z) =
        some true ↔ (∃ b, sig[4]? = some b ∧ ¬ b &&& 0x80 ≠ 0 ∧
          hasNullStart sig R.length 4 = some false) ∧ z = some true := by
    intro z
    rw [Option.bind_eq_some_iff]
    simp only [ite_false_eq_true, bind_null_eq_true]
    constructor
    · rintro ⟨b, hb, hbit, hnull, hz⟩
      exact ⟨⟨b, hb, hbit, hnull⟩, hz⟩
    · rintro ⟨⟨b, hb, hbit, hnull⟩, hz⟩
      exact ⟨b, hb, hbit, hnull, hz⟩
  have hbindS : (sig[R.length + 6]?.bind fun a => if a &&& 0x80 ≠ 0 then some false
      else (hasNullStart sig S.length (R.length + 6)).map fun null => !null) = some true ↔
        ∃ b, sig[R.length + 6]? = some b ∧ ¬ b &&& 0x80 ≠ 0 ∧
          hasNullStart sig S.length (R.length + 6) = some false := by
    rw [Option.bind_eq_some_iff]
    simp only [ite_false_eq_true, map_not_eq_true]
  rw [hbindR]
  simp only [ite_false_eq_true, hbindS]
  constructor
  · rintro ⟨h9, h73, ha₀, ha₁, -, -, ha₂, hR0, htR, hx2, hS0, htS⟩
    exact ⟨⟨by omega, by omega⟩, not_not.mp ha₀, by omega, not_not.mp ha₂, not_not.mp hx2,
      ⟨hR0, htR⟩, hS0, htS⟩
  · rintro ⟨⟨h9, h73⟩, ha₀, ha₁, ha₂, hx2, ⟨hR0, htR⟩, hS0, htS⟩
    exact ⟨by omega, by omega, not_not.mpr ha₀, by omega, by omega, by omega, not_not.mpr ha₂, hR0, htR,
      not_not.mpr hx2, hS0, htS⟩

/-- A vector that is accepted has parts of the lengths that it says. -/
theorem exists_parts {sig : Bytes} (h : isValidSignatureEncoding sig = some true) :
    ∃ a₀ a₁ a₂ a₃ x y t : UInt8, ∃ R S : Bytes,
      sig = a₀ :: a₁ :: a₂ :: a₃ :: (R ++ x :: y :: (S ++ [t])) ∧ a₃.toNat = R.length ∧
        y.toNat = S.length := by
  unfold isValidSignatureEncoding at h
  simp only [ite_false_eq_true, Option.bind_eq_some_iff] at h
  obtain ⟨h9, -, a₀, h₀, -, a₁, h₁, -, a₃, h₃, -, y, hy, hsum, -⟩ := h
  -- take the vector apart from the left
  rcases sig with _ | ⟨b₀, _ | ⟨b₁, _ | ⟨b₂, _ | ⟨b₃, rest⟩⟩⟩⟩
  · simp at h9
  · simp at h9
  · simp at h9
  · simp at h9
  · simp only [List.length_cons] at h9 hsum
    have hb₃ : b₃ = a₃ := by simpa using h₃
    subst hb₃
    have hyrest : rest[b₃.toNat + 1]? = some y := by
      have hshift : 5 + b₃.toNat = b₃.toNat + 1 + 1 + 1 + 1 + 1 := by omega
      rw [hshift] at hy
      simpa using hy
    have hlt : b₃.toNat < rest.length := by omega
    have hdrop : rest.drop b₃.toNat = rest[b₃.toNat] :: y :: rest.drop (b₃.toNat + 2) := by
      obtain ⟨hlt', hget⟩ := List.getElem?_eq_some_iff.mp hyrest
      rw [List.drop_eq_getElem_cons hlt, List.drop_eq_getElem_cons hlt', hget]
    have hne : rest.drop (b₃.toNat + 2) ≠ [] := by
      intro hnil
      have hlen := congrArg List.length hnil
      rw [List.length_drop, List.length_nil] at hlen
      omega
    refine ⟨b₀, b₁, b₂, b₃, rest[b₃.toNat], y, (rest.drop (b₃.toNat + 2)).getLast hne,
      rest.take b₃.toNat, (rest.drop (b₃.toNat + 2)).dropLast, ?_, ?_, ?_⟩
    · rw [List.dropLast_append_getLast, ← hdrop, List.take_append_drop]
    · rw [List.length_take]
      omega
    · rw [List.length_dropLast, List.length_drop]
      omega

/-- **What `IsValidSignatureEncoding` accepts** are the signatures of at most 73 bytes, and it reads
no byte outside of the vector. -/
theorem isValidSignatureEncoding_iff (sig : Bytes) :
    (isValidSignatureEncoding sig).isSome = true ∧
      (isValidSignatureEncoding sig = some true ↔
        (9 ≤ sig.length ∧ sig.length ≤ 73) ∧ ∃ s : Signature, sig = s.encode) := by
  refine ⟨isSome_isValidSignatureEncoding sig, ?_, ?_⟩
  · intro h
    obtain ⟨a₀, a₁, a₂, a₃, x, y, t, R, S, hsig, hR, hS⟩ := exists_parts h
    obtain ⟨hlen, ha₀, ha₁, ha₂, hx, htR, htS⟩ :=
      (isValidSignatureEncoding_of_parts hsig hR hS).mp h
    refine ⟨hlen, ⟨R, S, t, (integerTest_iff R).mp htR, (integerTest_iff S).mp htS⟩, ?_⟩
    rw [hsig, ha₀, ha₂, hx, Signature.encode]
    dsimp only
    rw [← ha₁, ← hR, ← hS, UInt8.ofNat_toNat, UInt8.ofNat_toNat, UInt8.ofNat_toNat]
  · rintro ⟨⟨h9, h73⟩, s, hsig⟩
    have hlen : sig.length = s.R.length + s.S.length + 7 := by
      rw [hsig, Signature.encode]
      simp
      omega
    have hbyte : ∀ {n : ℕ}, n ≤ 73 → (UInt8.ofNat n).toNat = n := by
      intro n hn
      rw [UInt8.toNat_ofNat', Nat.mod_eq_of_lt (by omega)]
    exact (isValidSignatureEncoding_of_parts hsig (hbyte (by omega)) (hbyte (by omega))).mpr
      ⟨⟨h9, h73⟩, rfl, hbyte (by omega), rfl, rfl, (integerTest_iff _).mpr s.isDerInteger_R,
        (integerTest_iff _).mpr s.isDerInteger_S⟩

end Script
