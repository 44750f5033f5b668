/-
# Conversion between radices, in place

A big number in base `b` is a buffer of digits, the least significant first.  A number in another base
`factor` is brought into the buffer digit by digit: every digit multiplies the buffer by `factor` and
is added to it (`mulAdd`), and what the buffer cannot hold is left as a carry.

* `ofDigits_mulAdd` : no value is lost between the buffer and the carry;
* `mulAdd_of_room` : while there is room for the digits that are to come, nothing is carried out;
* `pow_lt_pow_of_ratio` : the room that a rational upper bound of a logarithm gives is enough;
* `dropWhile_reverse` : the buffer without its leading zeros is the numeral of its value.
-/
import Mathlib.Data.List.DropRight
import Mathlib.Data.Nat.Digits.Lemmas
import Mathlib.Tactic.Ring

namespace Radix

/-- The buffer times `factor`, plus `carry`; and the carry that is left. -/
def mulAdd (b factor : ℕ) : ℕ → List ℕ → List ℕ × ℕ
  | carry, [] => ([], carry)
  | carry, d :: ds =>
    let rest := mulAdd b factor ((carry + factor * d) / b) ds
    ((carry + factor * d) % b :: rest.1, rest.2)

variable {b factor : ℕ}

theorem length_mulAdd (carry : ℕ) (ds : List ℕ) :
    (mulAdd b factor carry ds).1.length = ds.length := by
  induction ds generalizing carry with
  | nil => rfl
  | cons d ds ih => rw [mulAdd, List.length_cons, ih, List.length_cons]

/-- Every digit is below the base. -/
theorem lt_of_mem_mulAdd (hb : 0 < b) (carry : ℕ) (ds : List ℕ) :
    ∀ d ∈ (mulAdd b factor carry ds).1, d < b := by
  induction ds generalizing carry with
  | nil =>
    intro d hd
    cases hd
  | cons e ds ih =>
    intro d hd
    rw [mulAdd] at hd
    rcases List.mem_cons.mp hd with rfl | hd
    · exact Nat.mod_lt _ hb
    · exact ih _ d hd

/-- **No value is lost.** -/
theorem ofDigits_mulAdd (b factor carry : ℕ) (ds : List ℕ) :
    Nat.ofDigits b (mulAdd b factor carry ds).1 + b ^ ds.length * (mulAdd b factor carry ds).2 =
      carry + factor * Nat.ofDigits b ds := by
  induction ds generalizing carry with
  | nil =>
    rw [mulAdd, Nat.ofDigits_nil]
    simp
  | cons d ds ih =>
    have hsplit := Nat.mod_add_div (carry + factor * d) b
    rw [mulAdd, Nat.ofDigits_cons, Nat.ofDigits_cons, List.length_cons]
    calc (carry + factor * d) % b +
          b * Nat.ofDigits b (mulAdd b factor ((carry + factor * d) / b) ds).1 +
          b ^ (ds.length + 1) * (mulAdd b factor ((carry + factor * d) / b) ds).2
        = (carry + factor * d) % b +
          b * (Nat.ofDigits b (mulAdd b factor ((carry + factor * d) / b) ds).1 +
            b ^ ds.length * (mulAdd b factor ((carry + factor * d) / b) ds).2) := by ring
      _ = (carry + factor * d) % b + b * ((carry + factor * d) / b) +
          factor * (b * Nat.ofDigits b ds) := by rw [ih]; ring
      _ = carry + factor * (d + b * Nat.ofDigits b ds) := by rw [hsplit]; ring

/-- The buffer has room for `n` more digits. -/
def Room (b factor n : ℕ) (ds : List ℕ) : Prop :=
  (Nat.ofDigits b ds + 1) * factor ^ n ≤ b ^ ds.length

/-- **A digit for which there is room** leaves no carry, and room for the others. -/
theorem mulAdd_of_room {carry n : ℕ} {ds : List ℕ} (hroom : Room b factor (n + 1) ds)
    (hcarry : carry < factor) :
    (mulAdd b factor carry ds).2 = 0 ∧
      Nat.ofDigits b (mulAdd b factor carry ds).1 = carry + factor * Nat.ofDigits b ds ∧
      Room b factor n (mulAdd b factor carry ds).1 := by
  have hvalue := ofDigits_mulAdd b factor carry ds
  have hpos : 1 ≤ factor ^ n := Nat.one_le_pow _ _ (by omega)
  have hone : (carry + factor * Nat.ofDigits b ds + 1) * factor ^ n ≤ b ^ ds.length := by
    refine le_trans ?_ hroom
    rw [Nat.pow_succ, Nat.mul_comm (factor ^ n), ← Nat.mul_assoc]
    apply Nat.mul_le_mul_right
    rw [Nat.add_mul, Nat.one_mul, Nat.mul_comm factor]
    omega
  have hlt : carry + factor * Nat.ofDigits b ds < b ^ ds.length :=
    lt_of_lt_of_le (Nat.lt_succ_self _) (le_trans (Nat.le_mul_of_pos_right _ hpos) hone)
  have hzero : (mulAdd b factor carry ds).2 = 0 := by
    by_contra hne
    have hmul := Nat.le_mul_of_pos_right (b ^ ds.length) (Nat.pos_of_ne_zero hne)
    omega
  rw [hzero, Nat.mul_zero, Nat.add_zero] at hvalue
  refine ⟨hzero, hvalue, ?_⟩
  rw [Room, hvalue, length_mulAdd]
  exact hone

theorem Room.mono {m n : ℕ} {ds : List ℕ} (h : Room b factor n ds) (hpos : 0 < factor)
    (hle : m ≤ n) : Room b factor m ds :=
  le_trans (Nat.mul_le_mul_left _ (Nat.pow_le_pow_right hpos hle)) h

/-- An empty buffer has the value zero. -/
theorem ofDigits_replicate_zero (k : ℕ) : Nat.ofDigits b (List.replicate k 0) = 0 := by
  have h := Nat.ofDigits_append_replicate_zero (b := b) (k := k) []
  rwa [List.nil_append, Nat.ofDigits_nil] at h

/-- **The estimate.**  When `p / q` is at least the logarithm of `factor` to the base `b`, and
`num / den` is no less than it, `n * num / den + 1` digits have room for `n` digits. -/
theorem pow_lt_pow_of_ratio {p q num den : ℕ} (hb : 1 < b) (hq : 0 < q) (hden : 0 < den)
    (hlog : factor ^ q ≤ b ^ p) (hratio : p * den ≤ num * q) (n : ℕ) :
    factor ^ n < b ^ (n * num / den + 1) := by
  have hround : n * num < (n * num / den + 1) * den := by
    rw [Nat.add_mul, Nat.one_mul, Nat.mul_comm (n * num / den)]
    exact Nat.lt_mul_div_succ (n * num) hden
  have hexponent : p * n < (n * num / den + 1) * q := by
    apply lt_of_mul_lt_mul_right (a := den) _ (Nat.zero_le _)
    calc p * n * den = p * den * n := by ring
      _ ≤ num * q * n := Nat.mul_le_mul_right _ hratio
      _ = n * num * q := by ring
      _ < (n * num / den + 1) * den * q := Nat.mul_lt_mul_of_pos_right hround hq
      _ = (n * num / den + 1) * q * den := by ring
  apply lt_of_pow_lt_pow_left₀ q (Nat.zero_le _)
  calc (factor ^ n) ^ q = (factor ^ q) ^ n := by rw [← pow_mul, ← pow_mul, Nat.mul_comm]
    _ ≤ (b ^ p) ^ n := Nat.pow_le_pow_left hlog n
    _ = b ^ (p * n) := (pow_mul b p n).symm
    _ < b ^ ((n * num / den + 1) * q) := Nat.pow_lt_pow_right hb hexponent
    _ = (b ^ (n * num / den + 1)) ^ q := pow_mul b _ q

/-- An empty buffer of the estimated size has room. -/
theorem room_replicate {n k : ℕ} (h : factor ^ n < b ^ k) :
    Room b factor n (List.replicate k 0) := by
  rw [Room, ofDigits_replicate_zero, List.length_replicate, Nat.zero_add, Nat.one_mul]
  exact le_of_lt h

/-! ## Numerals -/

/-- A numeral that starts with a digit other than zero is the numeral of its value. -/
theorem reverse_digits_ofDigits {ds : List ℕ} (hb : 1 < b) (hlt : ∀ d ∈ ds, d < b)
    (hhead : ds.head? ≠ some 0) :
    (Nat.digits b (Nat.ofDigits b ds.reverse)).reverse = ds := by
  rw [Nat.digits_ofDigits b hb _ (fun d hd => hlt d (List.mem_reverse.mp hd)), List.reverse_reverse]
  intro hne hlast
  apply hhead
  rw [List.getLast_reverse] at hlast
  rw [List.head?_eq_some_head (by simpa using hne), hlast]

/-- Leading zeros do not count. -/
theorem ofDigits_dropWhile_reverse (ds : List ℕ) :
    Nat.ofDigits b (ds.reverse.dropWhile (· = 0)).reverse = Nat.ofDigits b ds := by
  induction ds using List.reverseRecOn with
  | nil => rfl
  | append_singleton ds d ih =>
    rw [List.reverse_append, List.reverse_singleton, List.singleton_append, List.dropWhile_cons]
    split_ifs with hzero
    · rw [ih, of_decide_eq_true hzero, Nat.ofDigits_append_zero]
    · rw [List.reverse_cons, List.reverse_reverse]

theorem head?_dropWhile_ne {α : Type} [DecidableEq α] (a : α) (l : List α) :
    (l.dropWhile (· = a)).head? ≠ some a := by
  intro h
  have hnot := List.head?_dropWhile_not (fun x => decide (x = a)) l
  rw [h] at hnot
  simp at hnot

/-- **The buffer without its leading zeros** is the numeral of its value. -/
theorem dropWhile_reverse {ds : List ℕ} (hb : 1 < b) (hlt : ∀ d ∈ ds, d < b) :
    ds.reverse.dropWhile (· = 0) = (Nat.digits b (Nat.ofDigits b ds)).reverse := by
  rw [← ofDigits_dropWhile_reverse ds, reverse_digits_ofDigits hb]
  · intro d hd
    exact hlt d (List.mem_reverse.mp ((List.dropWhile_sublist _).subset hd))
  · exact head?_dropWhile_ne 0 _

/-- A numeral does not start with zero. -/
theorem head?_reverse_digits_ne (n : ℕ) : (Nat.digits b n).reverse.head? ≠ some 0 := by
  intro h
  obtain ⟨l, hl⟩ := List.head?_eq_some_iff.mp h
  by_cases hn : n = 0
  · rw [hn, Nat.digits_zero] at hl
    cases hl
  · have hlast := Nat.getLast_digit_ne_zero b hn
    apply hlast
    rw [List.getLast_eq_head_reverse]
    simp only [hl, List.head_cons]

/-! ## A run at the front -/

section Run

variable {α : Type} [DecidableEq α] {a : α} {l : List α}

/-- A list is a run of `a`, and what is left when the run is dropped. -/
theorem replicate_append_dropWhile (a : α) (l : List α) :
    List.replicate (l.takeWhile (· = a)).length a ++ l.dropWhile (· = a) = l := by
  have hrun : l.takeWhile (· = a) = List.replicate (l.takeWhile (· = a)).length a := by
    apply List.eq_replicate_iff.mpr
    constructor
    · rfl
    · intro x hx
      have hmem := List.mem_takeWhile_imp hx
      exact of_decide_eq_true hmem
  rw [← hrun, List.takeWhile_append_dropWhile]

theorem takeWhile_replicate_append (n : ℕ) (h : l.head? ≠ some a) :
    (List.replicate n a ++ l).takeWhile (· = a) = List.replicate n a := by
  rw [List.takeWhile_append_of_pos]
  · cases l with
    | nil => rw [List.takeWhile_nil, List.append_nil]
    | cons x l =>
      rw [List.takeWhile_cons, if_neg, List.append_nil]
      intro hx
      exact h (congrArg some (of_decide_eq_true hx))
  · intro x hx
    exact decide_eq_true (List.eq_of_mem_replicate hx)

theorem dropWhile_replicate_append (n : ℕ) (h : l.head? ≠ some a) :
    (List.replicate n a ++ l).dropWhile (· = a) = l := by
  rw [List.dropWhile_append_of_pos]
  · cases l with
    | nil => rfl
    | cons x l =>
      rw [List.dropWhile_cons, if_neg]
      intro hx
      exact h (congrArg some (of_decide_eq_true hx))
  · intro x hx
    exact decide_eq_true (List.eq_of_mem_replicate hx)

end Run

end Radix
