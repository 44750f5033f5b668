/-
# Bijective base-`b` numerals

A variable-length integer that subtracts one before it passes on a carry is a
numeral in *bijective* base `b`: the digits run from `1` to `b` and every
positive number has exactly one numeral.  Here a digit `d < b` stands for
`d + 1`, and `digits b n` is the numeral of `n + 1`, least significant digit
first.

* `ofDigits_digits` : reading a numeral back gives the number;
* `digits_ofDigits` : a numeral is the one of its number, so that no number has two;
* `foldl_reverse_eq_ofDigits` : reading from the most significant digit on, with
  an accumulator, gives the same number;
* `length_digits_le` : `n < b ^ k` needs at most `k` digits.
-/
import Mathlib.Algebra.Order.Ring.Nat
import Mathlib.Tactic.Ring

namespace BijectiveBase

/-- The bijective base-`b` numeral of `n + 1`, least significant digit first. -/
def digits (b n : ℕ) : List ℕ :=
  if n < b ∨ b = 0 then [n] else n % b :: digits b (n / b - 1)
termination_by n
decreasing_by
  rename_i h
  have hdiv : n / b ≤ n := Nat.div_le_self n b
  omega

/-- The number that a numeral stands for. -/
def ofDigits (b : ℕ) : List ℕ → ℕ
  | [] => 0
  | d :: ds => d + 1 + b * ofDigits b ds

theorem digits_of_lt {b n : ℕ} (h : n < b) : digits b n = [n] := by
  rw [digits, if_pos (Or.inl h)]

theorem digits_of_le {b n : ℕ} (hb : 0 < b) (h : b ≤ n) :
    digits b n = n % b :: digits b (n / b - 1) := by
  rw [digits, if_neg (by omega)]

/-- A numeral is never empty. -/
theorem digits_ne_nil (b n : ℕ) : digits b n ≠ [] := by
  rw [digits]
  split <;> simp

/-- The carry that `digits` passes on is smaller than the number itself. -/
theorem div_sub_one_lt {b n : ℕ} (hb : 0 < b) (h : b ≤ n) : n / b - 1 < n := by
  have hdiv : n / b ≤ n := Nat.div_le_self n b
  omega

/-- **Reading a numeral back.** -/
theorem ofDigits_digits {b : ℕ} (hb : 0 < b) (n : ℕ) : ofDigits b (digits b n) = n + 1 := by
  induction n using Nat.strongRecOn with
  | ind n ih =>
    by_cases h : n < b
    · rw [digits_of_lt h]
      simp [ofDigits]
    · push Not at h
      rw [digits_of_le hb h, ofDigits, ih _ (div_sub_one_lt hb h)]
      have hpos : 1 ≤ n / b := (Nat.one_le_div_iff hb).mpr h
      have hcarry : n / b - 1 + 1 = n / b := by omega
      rw [hcarry]
      have hsplit : n % b + b * (n / b) = n := Nat.mod_add_div n b
      omega

/-- **A numeral is the one of its number.** -/
theorem digits_ofDigits {b : ℕ} {ds : List ℕ} (hne : ds ≠ []) (hlt : ∀ d ∈ ds, d < b) :
    digits b (ofDigits b ds - 1) = ds := by
  induction ds with
  | nil => exact absurd rfl hne
  | cons d ds ih =>
    have hd := hlt d List.mem_cons_self
    have hb : 0 < b := by omega
    rw [ofDigits, show d + 1 + b * ofDigits b ds - 1 = d + b * ofDigits b ds from by omega]
    cases ds with
    | nil => rw [ofDigits, Nat.mul_zero, Nat.add_zero, digits_of_lt hd]
    | cons e ds =>
      have hpos : 1 ≤ ofDigits b (e :: ds) := by
        rw [ofDigits]
        omega
      have hle : b ≤ d + b * ofDigits b (e :: ds) :=
        le_add_left (Nat.le_mul_of_pos_right b hpos)
      rw [digits_of_le hb hle, Nat.add_mul_mod_self_left, Nat.mod_eq_of_lt hd,
        Nat.add_mul_div_left _ _ hb, Nat.div_eq_of_lt hd, Nat.zero_add,
        ih (by simp) fun x hx => hlt x (List.mem_cons_of_mem _ hx)]

/-- Every digit is smaller than the base. -/
theorem lt_of_mem_digits {b : ℕ} (hb : 0 < b) (n : ℕ) : ∀ d ∈ digits b n, d < b := by
  induction n using Nat.strongRecOn with
  | ind n ih =>
    intro d hd
    by_cases h : n < b
    · rw [digits_of_lt h, List.mem_singleton] at hd
      omega
    · push Not at h
      rw [digits_of_le hb h] at hd
      rcases List.mem_cons.mp hd with rfl | hd
      · exact Nat.mod_lt n hb
      · exact ih _ (div_sub_one_lt hb h) d hd

/-- A number below `b ^ (k + 1)` has at most `k + 1` digits. -/
theorem length_digits_le {b : ℕ} (hb : 0 < b) (k n : ℕ) (hn : n < b ^ (k + 1)) :
    (digits b n).length ≤ k + 1 := by
  induction k generalizing n with
  | zero =>
    rw [digits_of_lt (by simpa using hn)]
    simp
  | succ k ih =>
    by_cases h : n < b
    · rw [digits_of_lt h]
      simp
    · push Not at h
      rw [digits_of_le hb h, List.length_cons]
      have hdiv : n / b < b ^ (k + 1) := by
        rw [Nat.div_lt_iff_lt_mul hb, ← pow_succ]
        exact hn
      have hlen := ih (n / b - 1) (lt_of_le_of_lt (Nat.sub_le _ _) hdiv)
      omega

/-- Reading from the most significant end: an accumulator that starts at `0` and
takes `acc` to `acc * b + d + 1` at each digit ends at the number. -/
theorem foldl_reverse_eq_ofDigits (b : ℕ) (ds : List ℕ) :
    ds.reverse.foldl (fun acc d => acc * b + d + 1) 0 = ofDigits b ds := by
  rw [List.foldl_reverse]
  induction ds with
  | nil => rfl
  | cons d ds ih =>
    rw [List.foldr_cons, ih, ofDigits]
    ring

end BijectiveBase
