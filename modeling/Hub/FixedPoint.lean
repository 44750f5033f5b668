/-
# Amounts as text

`ParseFixedPoint` (`libs/utils/utilstrencodings.cpp`) reads an amount of the RPC interface.

Trailing zeros of the mantissa are counted and only multiplied in when another digit follows, so what
has been read is always `mantissa * 10 ^ mantissa_tzeros`, and the mantissa does not end in a zero
(`Holds`).  A number that is refused on the way has a digit too many that is not a zero (`Long`).
-/
import Mathlib.Algebra.Order.Field.Power
import Mathlib.Algebra.Order.Ring.Rat
import Mathlib.Data.List.TakeWhile
import Mathlib.Tactic.FieldSimp
import Mathlib.Tactic.Linarith
import Mathlib.Tactic.NormNum
import Mathlib.Tactic.Positivity
import Mathlib.Tactic.Ring

namespace FixedPoint

/-! ## The parser -/

/-- `return false`, and a signed integer that overflows. -/
inductive Failure where
  | refused
  | overflow
  deriving DecidableEq

def int64 (x : ℤ) : Except Failure ℤ :=
  if -2 ^ 63 ≤ x ∧ x < 2 ^ 63 then .ok x else .error .overflow

def int32 (x : ℤ) : Except Failure ℤ :=
  if -2 ^ 31 ≤ x ∧ x < 2 ^ 31 then .ok x else .error .overflow

/-- `UPPER_BOUND`. -/
def upperBound : ℤ := 1000000000000000000 - 1

/-- `ch - '0'`. -/
def digit (ch : Char) : ℕ := ch.toNat - '0'.toNat

structure Scan where
  mantissa : ℤ
  mantissaTzeros : ℤ

/-- The loop of `ProcessMantissaDigit`, `n` rounds of it. -/
def raise (mantissa : ℤ) : ℕ → Except Failure ℤ
  | 0 => .ok mantissa
  | n + 1 =>
      if upperBound / 10 < mantissa then .error .refused
      else do
        let mantissa ← int64 (mantissa * 10)
        raise mantissa n

/-- `ProcessMantissaDigit`. -/
def processMantissaDigit (ch : Char) (st : Scan) : Except Failure Scan :=
  if ch = '0' then do
    let tzeros ← int32 (st.mantissaTzeros + 1)
    .ok ⟨st.mantissa, tzeros⟩
  else do
    let mantissa ← raise st.mantissa (st.mantissaTzeros + 1).toNat
    let mantissa ← int64 (mantissa + digit ch)
    .ok ⟨mantissa, 0⟩

/-- `while (ptr < end && val[ptr] >= '0' && val[ptr] <= '9')`. -/
def digitLoop {σ : Type} (process : Char → σ → Except Failure σ) :
    List Char → σ → Except Failure (σ × List Char)
  | [], st => .ok (st, [])
  | ch :: rest, st =>
      if ch.isDigit then do
        let st ← process ch st
        digitLoop process rest st
      else .ok (st, ch :: rest)

/-- The same loop, where a digit is expected. -/
def someDigits {σ : Type} (process : Char → σ → Except Failure σ) :
    List Char → σ → Except Failure (σ × List Char)
  | [], _ => .error .refused
  | ch :: rest, st =>
      if ch.isDigit then digitLoop process (ch :: rest) st else .error .refused

def minusSign : List Char → Bool × List Char
  | [] => (false, [])
  | ch :: rest => if ch = '-' then (true, rest) else (false, ch :: rest)

/-- A single zero is passed, without a look at what follows. -/
def integerPart : List Char → Except Failure (Scan × List Char)
  | [] => .error .refused
  | ch :: rest =>
      if ch = '0' then .ok (⟨0, 0⟩, rest)
      else if ch.isDigit then digitLoop processMantissaDigit (ch :: rest) ⟨0, 0⟩
      else .error .refused

/-- A digit behind the point also moves `point_ofs`. -/
def processFractionDigit (ch : Char) (st : Scan × ℤ) : Except Failure (Scan × ℤ) := do
  let scan ← processMantissaDigit ch st.1
  let pointOfs ← int32 (st.2 + 1)
  .ok (scan, pointOfs)

def fractionPart (st : Scan) : List Char → Except Failure ((Scan × ℤ) × List Char)
  | [] => .ok ((st, 0), [])
  | ch :: rest =>
      if ch = '.' then someDigits processFractionDigit rest (st, 0) else .ok ((st, 0), ch :: rest)

def processExponentDigit (ch : Char) (exponent : ℤ) : Except Failure ℤ :=
  if upperBound / 10 < exponent then .error .refused
  else do
    let tens ← int64 (exponent * 10)
    let sum ← int64 (tens + ch.toNat)
    int64 (sum - '0'.toNat)

def exponentSign : List Char → Bool × List Char
  | [] => (false, [])
  | ch :: rest =>
      if ch = '+' then (false, rest) else if ch = '-' then (true, rest) else (false, ch :: rest)

/-- The sign of the exponent, its digits, and what is left. -/
def exponentPart : List Char → Except Failure ((Bool × ℤ) × List Char)
  | [] => .ok ((false, 0), [])
  | ch :: rest =>
      if ch = 'e' ∨ ch = 'E' then do
        let r ← someDigits processExponentDigit (exponentSign rest).2 0
        .ok (((exponentSign rest).1, r.1), r.2)
      else .ok ((false, 0), ch :: rest)

/-- The loop at the end, `n` rounds of it. -/
def scale (mantissa : ℤ) : ℕ → Except Failure ℤ
  | 0 => .ok mantissa
  | n + 1 =>
      if upperBound / 10 < mantissa ∨ mantissa < -(upperBound / 10) then .error .refused
      else do
        let mantissa ← int64 (mantissa * 10)
        scale mantissa n

/-- A sign that was read. -/
def negateIf (sign : Bool) (x : ℤ) : Except Failure ℤ :=
  if sign then int64 (-x) else .ok x

/-- From `finalize exponent` on. -/
def finalize (mantissaSign : Bool) (st : Scan) (pointOfs : ℤ) (exponentSign : Bool)
    (exponent decimals : ℤ) : Except Failure ℤ := do
  let exponent ← negateIf exponentSign exponent
  let exponent ← int64 (exponent - pointOfs)
  let exponent ← int64 (exponent + st.mantissaTzeros)
  let mantissa ← negateIf mantissaSign st.mantissa
  let exponent ← int64 (exponent + decimals)
  if exponent < 0 then .error .refused
  else if 18 ≤ exponent then .error .refused
  else do
    let mantissa ← scale mantissa exponent.toNat
    if upperBound < mantissa ∨ mantissa < -upperBound then .error .refused else .ok mantissa

/-- What lies before `end`, which is the size of the string as an `int`. -/
def beforeEnd (val : List Char) : List Char :=
  val.take (Int.bmod val.length (2 ^ 32)).toNat

/-- `ParseFixedPoint`. -/
def parseFixedPoint (val : List Char) (decimals : ℤ) : Except Failure ℤ := do
  let chars := beforeEnd val
  let integer ← integerPart (minusSign chars).2
  let fraction ← fractionPart integer.1 integer.2
  let exponent ← exponentPart fraction.2
  if exponent.2 ≠ [] then .error .refused
  else finalize (minusSign chars).1 fraction.1.1 fraction.1.2 exponent.1.1 exponent.1.2 decimals

/-! ## Numbers -/

/-- One or more digits. -/
structure Digits where
  chars : List Char
  ne_nil : chars ≠ []
  isDigit : ∀ ch ∈ chars, ch.isDigit = true

/-- Digits that follow a number. -/
def digitsFrom (number : ℕ) (chars : List Char) : ℕ :=
  chars.foldl (fun number ch => 10 * number + digit ch) number

def Digits.value (ds : Digits) : ℕ := digitsFrom 0 ds.chars

/-- The exponent part of a number. -/
structure Exponent where
  letter : Char
  letter_eq : letter = 'e' ∨ letter = 'E'
  sign : Option Char
  sign_eq : ∀ ch ∈ sign, ch = '+' ∨ ch = '-'
  digits : Digits

/-- A number of JSON. -/
structure JsonNumber where
  negative : Bool
  integer : Digits
  no_leading_zero : integer.chars = ['0'] ∨ integer.chars.head? ≠ some '0'
  fraction : Option Digits
  exponent : Option Exponent

def fractionDigits : Option Digits → List Char
  | none => []
  | some ds => ds.chars

def fractionText : Option Digits → List Char
  | none => []
  | some ds => '.' :: ds.chars

def exponentText : Option Exponent → List Char
  | none => []
  | some e => e.letter :: (e.sign.toList ++ e.digits.chars)

def exponentValue : Option Exponent → ℤ
  | none => 0
  | some e => if e.sign = some '-' then -e.digits.value else e.digits.value

namespace JsonNumber

def text (n : JsonNumber) : List Char :=
  (if n.negative then ['-'] else []) ++
    (n.integer.chars ++ (fractionText n.fraction ++ exponentText n.exponent))

/-- The number that is meant. -/
def value (n : JsonNumber) : ℚ :=
  (if n.negative then -1 else 1) *
    (n.integer.value + digitsFrom 0 (fractionDigits n.fraction) /
      10 ^ (fractionDigits n.fraction).length) * 10 ^ exponentValue n.exponent

end JsonNumber

/-! ## What a call may return -/

section

variable {α β : Type} {r : Except Failure α} {f : α → Except Failure β} {R R' : Prop}
  {P Q : α → Prop} {S : β → Prop}

/-- No overflow; `R` if the call refuses, and `P` of what it returns. -/
def Returns (r : Except Failure α) (R : Prop) (P : α → Prop) : Prop :=
  match r with
  | .ok a => P a
  | .error .refused => R
  | .error .overflow => False

theorem Returns.mono (h : Returns r R P) (hR : R → R') (hP : ∀ a, P a → Q a) : Returns r R' Q := by
  match r with
  | .ok a => exact hP a h
  | .error .refused => exact hR h
  | .error .overflow => exact h

theorem Returns.bind (h : Returns r R P) (hf : ∀ a, P a → Returns (f a) R S) :
    Returns (r >>= f) R S := by
  match r with
  | .ok a => exact hf a h
  | .error .refused => exact h
  | .error .overflow => exact h

theorem returns_refused (hR : R) : Returns (.error .refused >>= f) R S := hR

theorem returns_int64 {x : ℤ} {P : ℤ → Prop} (hlo : -2 ^ 63 ≤ x) (hhi : x < 2 ^ 63) (hP : P x) :
    Returns (int64 x) R P := by
  rw [int64, if_pos ⟨hlo, hhi⟩]
  exact hP

theorem returns_int32 {x : ℤ} {P : ℤ → Prop} (hlo : -2 ^ 31 ≤ x) (hhi : x < 2 ^ 31) (hP : P x) :
    Returns (int32 x) R P := by
  rw [int32, if_pos ⟨hlo, hhi⟩]
  exact hP

theorem returns_negateIf {x : ℤ} (hlo : -2 ^ 63 < x) (hhi : x < 2 ^ 63) (sign : Bool) {y : ℤ}
    (hy : (if sign then -x else x) = y) : Returns (negateIf sign x) R fun x' => x' = y := by
  cases sign with
  | false => exact hy
  | true =>
    refine returns_int64 ?_ ?_ hy
    all_goals omega

end

section

-- the checks are only seen through the two lemmas
attribute [local irreducible] int64 int32

/-! ## Digits -/

/-- `N` has a digit, not a zero, with 18 or more digits in front of it. -/
def Long (N : ℕ) : Prop :=
  ∃ D k r, N = D * 10 ^ k + r ∧ r < 10 ^ k ∧ 10 ^ 18 ≤ D ∧ D % 10 ≠ 0

/-- What has been read is `number`, in `count` digits: the trailing zeros are not in the mantissa. -/
def Holds (st : Scan) (number count : ℕ) : Prop :=
  ∃ m tz : ℕ, st = ⟨m, tz⟩ ∧ m * 10 ^ tz = number ∧ m < 10 ^ 18 ∧ tz ≤ count ∧
    (m = 0 ∧ tz = count ∨ m % 10 ≠ 0)

theorem digit_lt {ch : Char} (h : ch.isDigit = true) : digit ch < 10 := by
  have := (Char.isDigit_iff_toNat.mp h).2
  change ch.toNat - 48 < 10
  change ch.toNat ≤ 57 at this
  omega

theorem digit_ne_zero {ch : Char} (h : ch.isDigit = true) (hne : ch ≠ '0') : digit ch ≠ 0 := by
  have hle := (Char.isDigit_iff_toNat.mp h).1
  intro hzero
  apply hne
  apply Char.toNat_inj.mp
  exact Nat.le_antisymm (Nat.sub_eq_zero_iff_le.mp hzero) hle

/-- One more digit. -/
theorem Long.snoc {N d : ℕ} (h : Long N) (hd : d < 10) : Long (10 * N + d) := by
  obtain ⟨D, k, r, rfl, hr, hD, hmod⟩ := h
  refine ⟨D, k + 1, 10 * r + d, ?_, ?_, hD, hmod⟩
  · ring
  · rw [pow_succ]
    omega

theorem Long.digitsFrom {N : ℕ} {chars : List Char} (h : Long N)
    (hchars : ∀ ch ∈ chars, ch.isDigit = true) : Long (digitsFrom N chars) := by
  induction chars generalizing N with
  | nil => exact h
  | cons ch chars ih =>
    apply ih (h.snoc (digit_lt (hchars ch List.mem_cons_self)))
    intro ch' hch'
    exact hchars ch' (List.mem_cons_of_mem ch hch')

theorem digitsFrom_eq (N : ℕ) {chars : List Char} (hchars : ∀ ch ∈ chars, ch.isDigit = true) :
    digitsFrom N chars = N * 10 ^ chars.length + digitsFrom 0 chars := by
  induction chars generalizing N with
  | nil => exact (Nat.mul_one N).symm
  | cons ch chars ih =>
    change digitsFrom (10 * N + digit ch) chars =
      N * 10 ^ (chars.length + 1) + digitsFrom (10 * 0 + digit ch) chars
    have hchars' : ∀ ch ∈ chars, ch.isDigit = true := fun ch' hch' =>
      hchars ch' (List.mem_cons_of_mem ch hch')
    rw [ih _ hchars', ih (10 * 0 + digit ch) hchars']
    ring

/-- The mantissa with its trailing zeros. -/
theorem raise_spec {m : ℕ} (hm : m < 10 ^ 18) (n : ℕ) :
    Returns (raise m n) (10 ^ 18 ≤ m * 10 ^ n) fun m' => m' = m * 10 ^ n ∧ m * 10 ^ n < 10 ^ 18 := by
  induction n generalizing m with
  | zero =>
    refine ⟨?_, ?_⟩
    · rw [pow_zero, mul_one]
    · rw [pow_zero, mul_one]
      exact hm
  | succ n ih =>
    have hpow : m * 10 ^ (n + 1) = m * 10 * 10 ^ n := by ring
    rw [raise]
    split
    · next hlarge =>
      have hlarge : 10 ^ 17 ≤ m := by
        rw [upperBound] at hlarge
        omega
      have : 1 ≤ 10 ^ n := Nat.one_le_pow n 10 (by decide)
      change 10 ^ 18 ≤ m * 10 ^ (n + 1)
      rw [hpow]
      nlinarith only [hlarge, this]
    · next hsmall =>
      rw [upperBound] at hsmall
      refine Returns.bind (P := fun m' : ℤ => m' = (m * 10 : ℕ)) ?_ ?_
      · refine returns_int64 ?_ ?_ ?_
        · omega
        · omega
        · push_cast
          rfl
      · rintro _ rfl
        rw [hpow]
        apply (ih (by omega)).mono id
        rintro m' ⟨rfl, hlt⟩
        refine ⟨?_, hlt⟩
        push_cast
        ring

theorem processMantissaDigit_spec {st : Scan} {number count : ℕ} (h : Holds st number count)
    {ch : Char} (hch : ch.isDigit = true) (hcount : count + 1 < 2 ^ 31) :
    Returns (processMantissaDigit ch st) (Long (10 * number + digit ch)) fun st' =>
      Holds st' (10 * number + digit ch) (count + 1) := by
  obtain ⟨m, tz, rfl, rfl, hm, htz, hzero⟩ := h
  have hd := digit_lt hch
  have hpow : m * 10 ^ (tz + 1) = 10 * (m * 10 ^ tz) := by ring
  rw [processMantissaDigit]
  split
  · next hch0 =>
    -- one more trailing zero
    have hdigit : digit ch = 0 := by
      rw [hch0]
      rfl
    refine Returns.bind (P := fun tz' : ℤ => tz' = (tz + 1 : ℕ)) ?_ ?_
    · refine returns_int32 ?_ ?_ ?_
      · change -2 ^ 31 ≤ (tz : ℤ) + 1
        omega
      · change (tz : ℤ) + 1 < 2 ^ 31
        omega
      · rfl
    · rintro _ rfl
      refine ⟨m, tz + 1, rfl, ?_, hm, by omega, ?_⟩
      · rw [hdigit, hpow, add_zero]
      · omega
  · next hch0 =>
    have hdigit := digit_ne_zero hch hch0
    refine Returns.bind (P := fun m' : ℤ => m' = (m * 10 ^ (tz + 1) : ℕ) ∧ m * 10 ^ (tz + 1) < 10 ^ 18)
      ?_ ?_
    · apply (raise_spec hm (tz + 1)).mono
      · intro hlarge
        refine ⟨10 * (m * 10 ^ tz) + digit ch, 0, 0, ?_, Nat.one_pos, ?_, ?_⟩
        · ring
        · omega
        · omega
      · rintro m' ⟨rfl, hlt⟩
        refine ⟨?_, hlt⟩
        push_cast
        rfl
    · rintro _ ⟨rfl, hlt⟩
      refine Returns.bind (P := fun m' : ℤ => m' = (10 * (m * 10 ^ tz) + digit ch : ℕ)) ?_ ?_
      · refine returns_int64 ?_ ?_ ?_
        · omega
        · omega
        · rw [hpow]
          rfl
      · rintro _ rfl
        refine ⟨10 * (m * 10 ^ tz) + digit ch, 0, rfl, ?_, ?_, Nat.zero_le _, .inr ?_⟩
        · rw [pow_zero, mul_one]
        · omega
        · omega

/-! ## Runs of digits -/

/-- The digits end here. -/
def NoDigit (rest : List Char) : Prop := ∀ ch ∈ rest.head?, ch.isDigit = false

section

variable {σ : Type} {process : Char → σ → Except Failure σ} {Inv : σ → ℕ → ℕ → Prop}
  {R : ℕ → Prop} {limit : ℕ}

variable (process Inv R limit) in
/-- What one digit keeps, a run of digits keeps; the loop stops where the digits end. -/
theorem digitLoop_spec
    (hR : ∀ N chars, R N → (∀ ch ∈ chars, ch.isDigit = true) → R (digitsFrom N chars))
    (hstep : ∀ st N count ch, Inv st N count → ch.isDigit = true → count + 1 ≤ limit →
      Returns (process ch st) (R (10 * N + digit ch)) fun st' =>
        Inv st' (10 * N + digit ch) (count + 1))
    {ds rest : List Char} (hds : ∀ ch ∈ ds, ch.isDigit = true) (hrest : NoDigit rest) (st : σ)
    (N count : ℕ) (h : Inv st N count) (hcount : count + ds.length ≤ limit) :
    Returns (digitLoop process (ds ++ rest) st) (R (digitsFrom N ds)) fun r =>
      r.2 = rest ∧ Inv r.1 (digitsFrom N ds) (count + ds.length) := by
  induction ds generalizing st N count with
  | nil =>
    rw [List.nil_append]
    cases rest with
    | nil => exact ⟨rfl, h⟩
    | cons ch rest =>
      rw [digitLoop, if_neg]
      · exact ⟨rfl, h⟩
      · rw [hrest ch rfl]
        exact Bool.false_ne_true
  | cons ch ds ih =>
    have hch := hds ch List.mem_cons_self
    have hds' : ∀ ch ∈ ds, ch.isDigit = true := fun ch' hch' =>
      hds ch' (List.mem_cons_of_mem ch hch')
    rw [List.length_cons] at hcount ⊢
    rw [List.cons_append, digitLoop, if_pos hch]
    refine Returns.bind ((hstep st N count ch h hch (by omega)).mono ?_ fun _ => id) ?_
    · intro hrefused
      -- a refusal in front stays one for the whole number
      exact hR _ ds hrefused hds'
    · intro st' hst'
      rw [show count + (ds.length + 1) = count + 1 + ds.length by omega]
      exact ih hds' st' _ _ hst' (by omega)

/-- Where a digit is expected. -/
theorem someDigits_append {ds rest : List Char} (hne : ds ≠ [])
    (hds : ∀ ch ∈ ds, ch.isDigit = true) (st : σ) :
    someDigits process (ds ++ rest) st = digitLoop process (ds ++ rest) st := by
  cases ds with
  | nil => exact absurd rfl hne
  | cons ch ds =>
    rw [List.cons_append, someDigits]
    exact if_pos (hds ch List.mem_cons_self)

end

/-- The digits that a text begins with. -/
theorem exists_digits {ch : Char} (hch : ch.isDigit = true) (chars : List Char) :
    ∃ (ds : Digits) (rest : List Char), ds.chars.head? = some ch ∧
      ch :: chars = ds.chars ++ rest ∧ NoDigit rest := by
  have hfirst := List.takeWhile_cons_of_pos (l := chars) hch
  refine ⟨⟨(ch :: chars).takeWhile Char.isDigit, ?_, fun ch' => List.mem_takeWhile_imp⟩,
    (ch :: chars).dropWhile Char.isDigit, ?_, List.takeWhile_append_dropWhile.symm, ?_⟩
  · rw [hfirst]
    exact List.cons_ne_nil _ _
  · exact congrArg List.head? hfirst
  · intro ch' hch'
    have hnot := List.head?_dropWhile_not Char.isDigit (ch :: chars)
    rw [hch'] at hnot
    exact hnot

/-! ## The parts of a number -/

/-- A number that does not begin with a zero is not zero. -/
theorem digitsFrom_pos {chars : List Char} {N : ℕ} (h : 0 < N) : 0 < digitsFrom N chars := by
  induction chars generalizing N with
  | nil => exact h
  | cons ch chars ih =>
    apply ih
    change 0 < 10 * N + digit ch
    omega

/-- After the integer part: its digits have been counted, unless it is a single zero. -/
theorem integerPart_spec (int : Digits)
    (hlead : int.chars = ['0'] ∨ int.chars.head? ≠ some '0') {rest : List Char}
    (hrest : int.chars = ['0'] ∨ NoDigit rest) (hlen : int.chars.length < 2 ^ 31) :
    Returns (integerPart (int.chars ++ rest)) (Long int.value) fun r =>
      r.2 = rest ∧ ∃ count ≤ int.chars.length, (int.value = 0 → count = 0) ∧
        Holds r.1 int.value count := by
  obtain ⟨chars, hne, hdigits⟩ := int
  rw [Digits.value]
  dsimp only at *
  by_cases hzero : chars = ['0']
  · rw [hzero, List.singleton_append, integerPart, if_pos rfl]
    exact ⟨rfl, 0, Nat.zero_le _, fun _ => rfl, 0, 0, rfl, rfl, by decide, le_rfl, .inl ⟨rfl, rfl⟩⟩
  · have hnext := hrest.resolve_left hzero
    have hhead := hlead.resolve_left hzero
    have hloop := digitLoop_spec processMantissaDigit Holds Long (2 ^ 31 - 1)
      (fun N chars hN hchars => hN.digitsFrom hchars)
      (fun st N count ch hst hch hcount => processMantissaDigit_spec hst hch (by omega)) hdigits hnext
      ⟨0, 0⟩ 0 0 ⟨0, 0, rfl, rfl, by decide, le_rfl, .inl ⟨rfl, rfl⟩⟩
      (by omega)
    cases chars with
    | nil => exact absurd rfl hne
    | cons ch chars =>
      have hch : ch ≠ '0' := fun h => hhead (congrArg some h)
      have hdigit := hdigits ch List.mem_cons_self
      have hpos : 0 < digitsFrom 0 (ch :: chars) := by
        have := digit_ne_zero hdigit hch
        change 0 < digitsFrom (10 * 0 + digit ch) chars
        apply digitsFrom_pos
        omega
      rw [List.cons_append, integerPart, if_neg hch, if_pos hdigit]
      apply hloop.mono id
      rintro r ⟨hr, hst⟩
      exact ⟨hr, _, by omega, fun h => absurd h hpos.ne', hst⟩

/-- After the fraction: the point stands as many digits back as there are. -/
theorem fractionPart_spec {st : Scan} {N count : ℕ} (hst : Holds st N count) (f : Option Digits)
    {rest : List Char} (hnone : f = none → rest.head? ≠ some '.') (hsome : f ≠ none → NoDigit rest)
    (hlen : count + (fractionDigits f).length < 2 ^ 31) :
    Returns (fractionPart st (fractionText f ++ rest)) (Long (digitsFrom N (fractionDigits f)))
      fun r => r.2 = rest ∧
        Holds r.1.1 (digitsFrom N (fractionDigits f)) (count + (fractionDigits f).length) ∧
        r.1.2 = (fractionDigits f).length := by
  cases f with
  | none =>
    rw [fractionText, List.nil_append]
    cases rest with
    | nil => exact ⟨rfl, hst, rfl⟩
    | cons ch rest =>
      have hch : ch ≠ '.' := fun h => hnone rfl (congrArg some h)
      rw [fractionPart, if_neg hch]
      exact ⟨rfl, hst, rfl⟩
  | some ds =>
    change count + ds.chars.length < 2 ^ 31 at hlen
    rw [fractionText, List.cons_append, fractionPart, if_pos rfl,
      someDigits_append ds.ne_nil ds.isDigit]
    have hloop := digitLoop_spec processFractionDigit
      (fun st N k => Holds st.1 N (count + k) ∧ st.2 = (k : ℤ)) Long (2 ^ 31 - 1 - count)
      (fun N chars hN hchars => hN.digitsFrom hchars) ?_ ds.isDigit
      (hsome (Option.some_ne_none ds)) (st, 0) N 0 ⟨hst, rfl⟩ (by omega)
    · apply hloop.mono id
      rintro r ⟨hr, hscan, hpoint⟩
      rw [Nat.zero_add] at hscan hpoint
      exact ⟨hr, hscan, hpoint⟩
    · rintro ⟨scan, _⟩ N' k ch ⟨hscan, rfl⟩ hch hk
      refine Returns.bind (processMantissaDigit_spec hscan hch (by omega)) ?_
      intro scan' hscan'
      refine Returns.bind (P := fun point : ℤ => point = (k + 1 : ℕ)) ?_ ?_
      · refine returns_int32 ?_ ?_ rfl
        · change -2 ^ 31 ≤ (k : ℤ) + 1
          omega
        · change (k : ℤ) + 1 < 2 ^ 31
          omega
      · rintro _ rfl
        exact ⟨hscan', rfl⟩

theorem processExponentDigit_spec {N : ℕ} (hN : N < 10 ^ 18) {ch : Char}
    (hch : ch.isDigit = true) : Returns (processExponentDigit ch N) True fun e =>
      e = (10 * N + digit ch : ℕ) ∧ 10 * N + digit ch < 10 ^ 18 := by
  obtain ⟨hlo, hhi⟩ := Char.isDigit_iff_toNat.mp hch
  change 48 ≤ ch.toNat at hlo
  change ch.toNat ≤ 57 at hhi
  have hdigit : digit ch = ch.toNat - 48 := rfl
  rw [processExponentDigit]
  split
  · trivial
  · next hsmall =>
    rw [upperBound] at hsmall
    refine Returns.bind (P := fun x : ℤ => x = N * 10) (returns_int64 ?_ ?_ rfl) ?_
    · omega
    · omega
    · rintro _ rfl
      refine Returns.bind (P := fun x : ℤ => x = N * 10 + ch.toNat) (returns_int64 ?_ ?_ rfl) ?_
      · omega
      · omega
      · rintro _ rfl
        change Returns (int64 (N * 10 + ch.toNat - (48 : ℕ))) _ _
        refine returns_int64 ?_ ?_ ⟨?_, ?_⟩
        all_goals omega

theorem exponentSign_append {sign : Option Char} (hsign : ∀ ch ∈ sign, ch = '+' ∨ ch = '-')
    (ds : Digits) (rest : List Char) : exponentSign (sign.toList ++ (ds.chars ++ rest)) =
      (decide (sign = some '-'), ds.chars ++ rest) := by
  cases sign with
  | none =>
    obtain ⟨chars, hne, hdigits⟩ := ds
    cases chars with
    | nil => exact absurd rfl hne
    | cons ch chars =>
      have hdigit := hdigits ch List.mem_cons_self
      have hplus : ch ≠ '+' := by
        rintro rfl
        cases hdigit
      have hminus : ch ≠ '-' := by
        rintro rfl
        cases hdigit
      change exponentSign (ch :: (chars ++ rest)) = _
      rw [exponentSign, if_neg hplus, if_neg hminus]
      rfl
  | some ch =>
    obtain rfl | rfl := hsign ch rfl
    · rfl
    · rfl

/-- After the exponent. -/
theorem exponentPart_spec (e : Option Exponent) {rest : List Char}
    (hnone : e = none → ∀ ch ∈ rest.head?, ¬ (ch = 'e' ∨ ch = 'E'))
    (hsome : e ≠ none → NoDigit rest) :
    Returns (exponentPart (exponentText e ++ rest)) (e ≠ none) fun r =>
      r.2 = rest ∧ (if r.1.1 then -r.1.2 else r.1.2) = exponentValue e ∧
        0 ≤ r.1.2 ∧ r.1.2 < 10 ^ 18 := by
  cases e with
  | none =>
    rw [exponentText, List.nil_append]
    cases rest with
    | nil => exact ⟨rfl, rfl, le_rfl, by decide⟩
    | cons ch rest =>
      rw [exponentPart, if_neg (hnone rfl ch rfl)]
      exact ⟨rfl, rfl, le_rfl, show (0 : ℤ) < 10 ^ 18 by decide⟩
  | some e =>
    rw [exponentText, List.cons_append, exponentPart, if_pos e.letter_eq, List.append_assoc,
      exponentSign_append e.sign_eq, someDigits_append e.digits.ne_nil e.digits.isDigit]
    have hloop := digitLoop_spec processExponentDigit
      (fun st N _ => st = (N : ℤ) ∧ N < 10 ^ 18) (fun _ => True) e.digits.chars.length
      (fun _ _ _ _ => trivial) ?_ e.digits.isDigit (hsome (Option.some_ne_none e)) 0 0 0
      ⟨rfl, by decide⟩ (by omega)
    · refine Returns.bind (hloop.mono (fun _ => Option.some_ne_none e) fun _ => id) ?_
      rintro r ⟨hr, hvalue, hlt⟩
      refine ⟨hr, ?_, ?_, ?_⟩
      · rw [exponentValue, Digits.value]
        dsimp only
        rw [hvalue]
        by_cases hminus : e.sign = some '-'
        · rw [if_pos hminus, if_pos (decide_eq_true hminus)]
        · rw [if_neg hminus, if_neg (by rwa [decide_eq_true_iff])]
      · change 0 ≤ r.1
        omega
      · change r.1 < 10 ^ 18
        omega
    · rintro _ N _ ch ⟨rfl, hN⟩ hch _
      exact processExponentDigit_spec hN hch

/-! ## The amount -/

/-- The mantissa, with a sign, and zeros. -/
theorem scale_spec {m : ℕ} {s : ℤ} (hs : s = 1 ∨ s = -1) (hm : m < 10 ^ 18) (n : ℕ) :
    Returns (scale (s * m) n) (10 ^ 18 ≤ m * 10 ^ n) fun m' =>
      m' = s * (m * 10 ^ n : ℕ) ∧ m * 10 ^ n < 10 ^ 18 := by
  induction n generalizing m with
  | zero =>
    rw [pow_zero, Nat.mul_one]
    exact ⟨rfl, hm⟩
  | succ n ih =>
    have hpow : m * 10 ^ (n + 1) = m * 10 * 10 ^ n := by ring
    rw [scale]
    split
    · next hlarge =>
      have hlarge : 10 ^ 17 ≤ m := by
        rw [upperBound] at hlarge
        obtain rfl | rfl := hs
        · omega
        · omega
      have : 1 ≤ 10 ^ n := Nat.one_le_pow n 10 (by decide)
      change 10 ^ 18 ≤ m * 10 ^ (n + 1)
      rw [hpow]
      nlinarith only [hlarge, this]
    · next hsmall =>
      rw [upperBound] at hsmall
      refine Returns.bind (P := fun m' : ℤ => m' = s * (m * 10 : ℕ)) (returns_int64 ?_ ?_ ?_) ?_
      · obtain rfl | rfl := hs
        · omega
        · omega
      · obtain rfl | rfl := hs
        · omega
        · omega
      · push_cast
        ring
      · rintro _ rfl
        rw [hpow]
        apply ih
        obtain rfl | rfl := hs
        · omega
        · omega

/-- The mantissa moves by the exponent, the trailing zeros, the fraction and `decimals` together. -/
theorem finalize_spec {m : ℕ} (tz pointOfs : ℕ) {exponent decimals : ℤ} (hm : m < 10 ^ 18)
    (htz : tz < 2 ^ 31) (hpoint : pointOfs < 2 ^ 31) (hexp0 : 0 ≤ exponent)
    (hexp : exponent < 10 ^ 18) (hdec0 : -2 ^ 31 ≤ decimals) (hdec : decimals < 2 ^ 31)
    (negative expSign : Bool) {X : ℤ}
    (hX : X = (if expSign then -exponent else exponent) - pointOfs + tz + decimals) :
    Returns (finalize negative ⟨m, tz⟩ pointOfs expSign exponent decimals)
      (X < 0 ∨ 18 ≤ X ∨ 10 ^ 18 ≤ m * 10 ^ X.toNat) fun out =>
        0 ≤ X ∧ out = (if negative then -1 else 1) * (m * 10 ^ X.toNat : ℕ) ∧
          m * 10 ^ X.toNat < 10 ^ 18 := by
  have hs : (if negative then -1 else 1 : ℤ) = 1 ∨ (if negative then -1 else 1 : ℤ) = -1 := by
    cases negative with
    | false => exact .inl rfl
    | true => exact .inr rfl
  have hsigned : -10 ^ 18 < (if expSign then -exponent else exponent) ∧
      (if expSign then -exponent else exponent) < 10 ^ 18 := by
    split
    · omega
    · omega
  have hnegated : (if negative then -1 else 1) * (m : ℤ) = if negative then -(m : ℤ) else m := by
    split
    · exact neg_one_mul (m : ℤ)
    · exact one_mul (m : ℤ)
  refine Returns.bind (returns_negateIf (by omega) (by omega) expSign rfl) ?_
  rintro _ rfl
  generalize (if expSign then -exponent else exponent) = e at hX hsigned
  refine Returns.bind (P := fun x : ℤ => x = e - pointOfs) (returns_int64 ?_ ?_ rfl) ?_
  · omega
  · omega
  rintro _ rfl
  refine Returns.bind (P := fun x : ℤ => x = e - pointOfs + tz) (returns_int64 ?_ ?_ rfl) ?_
  · dsimp only
    omega
  · dsimp only
    omega
  rintro _ rfl
  have hlo : -2 ^ 63 < (m : ℤ) := by omega
  have hhi : (m : ℤ) < 2 ^ 63 := by omega
  refine Returns.bind (returns_negateIf hlo hhi negative hnegated.symm) ?_
  rintro _ rfl
  refine Returns.bind (P := fun x : ℤ => x = X) (returns_int64 ?_ ?_ hX.symm) ?_
  · omega
  · omega
  intro x hx
  rw [hx]
  split
  · next hneg => exact .inl hneg
  · next hpos =>
    split
    · next hlarge => exact .inr (.inl hlarge)
    · refine Returns.bind ((scale_spec hs hm X.toNat).mono (fun h => .inr (.inr h)) fun _ => id) ?_
      rintro _ ⟨rfl, hlt⟩
      generalize m * 10 ^ X.toNat = a at hlt
      rw [if_neg]
      · exact ⟨by omega, rfl, hlt⟩
      · rw [upperBound]
        obtain hs | hs := hs
        · rw [hs]
          omega
        · rw [hs]
          omega

/-! ## Numbers and other texts -/

/-- The parser stops where the number ends. -/
structure JsonNumber.Before (n : JsonNumber) (rest : List Char) : Prop where
  integer : n.integer.chars = ['0'] ∨
    NoDigit (fractionText n.fraction ++ (exponentText n.exponent ++ rest))
  no_fraction : n.fraction = none → (exponentText n.exponent ++ rest).head? ≠ some '.'
  fraction : n.fraction ≠ none → NoDigit (exponentText n.exponent ++ rest)
  no_exponent : n.exponent = none → ∀ ch ∈ rest.head?, ¬ (ch = 'e' ∨ ch = 'E')
  exponent : n.exponent ≠ none → NoDigit rest

theorem noDigit_nil : NoDigit [] := nofun

theorem noDigit_cons {ch : Char} (hch : ch.isDigit = false) (rest : List Char) :
    NoDigit (ch :: rest) := by
  rintro _ ⟨⟩
  exact hch

/-- The text of an exponent begins with its letter. -/
theorem noDigit_exponentText (e : Option Exponent) : NoDigit (exponentText e ++ []) ∧
    (exponentText e ++ []).head? ≠ some '.' := by
  cases e with
  | none => exact ⟨noDigit_nil, nofun⟩
  | some e =>
    change NoDigit (e.letter :: _) ∧ some e.letter ≠ some '.'
    obtain hletter | hletter := e.letter_eq
    · rw [hletter]
      exact ⟨noDigit_cons rfl _, by decide⟩
    · rw [hletter]
      exact ⟨noDigit_cons rfl _, by decide⟩

theorem JsonNumber.before_nil (n : JsonNumber) : n.Before [] where
  integer := by
    right
    cases n.fraction with
    | none => exact (noDigit_exponentText n.exponent).1
    | some ds => exact noDigit_cons rfl _
  no_fraction := fun _ => (noDigit_exponentText n.exponent).2
  fraction := fun _ => (noDigit_exponentText n.exponent).1
  no_exponent := fun _ => nofun
  exponent := fun _ => noDigit_nil

/-- The sign is taken off. -/
theorem minusSign_append (negative : Bool) (ds : Digits) (rest : List Char) :
    minusSign ((if negative then ['-'] else []) ++ (ds.chars ++ rest)) =
      (negative, ds.chars ++ rest) := by
  cases negative with
  | true => rfl
  | false =>
    obtain ⟨chars, hne, hdigits⟩ := ds
    cases chars with
    | nil => exact absurd rfl hne
    | cons ch chars =>
      have hminus : ch ≠ '-' := by
        rintro rfl
        cases hdigits '-' List.mem_cons_self
      change minusSign (ch :: (chars ++ rest)) = _
      rw [minusSign, if_neg hminus]
      rfl

theorem minusSign_cases (chars : List Char) :
    chars = (if (minusSign chars).1 then ['-'] else []) ++ (minusSign chars).2 := by
  cases chars with
  | nil => rfl
  | cons ch chars =>
    by_cases hminus : ch = '-'
    · rw [minusSign, if_pos hminus, hminus]
      rfl
    · rw [minusSign, if_neg hminus]
      rfl

theorem integerPart_cases (chars : List Char) : integerPart chars = .error .refused ∨
    ∃ (int : Digits) (rest : List Char), chars = int.chars ++ rest ∧
      (int.chars = ['0'] ∨ int.chars.head? ≠ some '0') ∧ (int.chars = ['0'] ∨ NoDigit rest) := by
  cases chars with
  | nil => exact .inl rfl
  | cons ch chars =>
    by_cases hzero : ch = '0'
    · refine .inr ⟨⟨['0'], List.cons_ne_nil _ _, ?_⟩, chars, ?_, .inl rfl, .inl rfl⟩
      · intro ch' hch'
        rw [List.mem_singleton.mp hch']
        rfl
      · rw [hzero]
        rfl
    · by_cases hch : ch.isDigit = true
      · obtain ⟨ds, rest, hhead, hchars, hrest⟩ := exists_digits hch chars
        refine .inr ⟨ds, rest, hchars, .inr ?_, .inr hrest⟩
        rw [hhead]
        exact fun h => hzero (Option.some.inj h)
      · left
        rw [integerPart, if_neg hzero, if_neg hch]

theorem someDigits_cases {σ : Type} (process : Char → σ → Except Failure σ) (chars : List Char) :
    (∀ st, someDigits process chars st = .error .refused) ∨
      ∃ (ds : Digits) (rest : List Char), chars = ds.chars ++ rest ∧ NoDigit rest := by
  cases chars with
  | nil => exact .inl fun _ => rfl
  | cons ch chars =>
    by_cases hch : ch.isDigit = true
    · obtain ⟨ds, rest, -, hchars, hrest⟩ := exists_digits hch chars
      exact .inr ⟨ds, rest, hchars, hrest⟩
    · left
      intro st
      rw [someDigits, if_neg hch]

theorem fractionPart_cases (chars : List Char) :
    (∀ st, fractionPart st chars = .error .refused) ∨
      ∃ (f : Option Digits) (rest : List Char), chars = fractionText f ++ rest ∧
        (f = none → rest.head? ≠ some '.') ∧ (f ≠ none → NoDigit rest) := by
  cases chars with
  | nil => exact .inr ⟨none, [], rfl, fun _ => nofun, fun h => absurd rfl h⟩
  | cons ch chars =>
    by_cases hpoint : ch = '.'
    · obtain hrefused | ⟨ds, rest, hchars, hrest⟩ := someDigits_cases processFractionDigit chars
      · left
        intro st
        rw [fractionPart, if_pos hpoint, hrefused]
      · refine .inr ⟨some ds, rest, ?_, fun h => absurd h (Option.some_ne_none ds), fun _ => hrest⟩
        rw [hpoint, hchars]
        rfl
    · exact .inr ⟨none, ch :: chars, rfl, fun _ h => hpoint (Option.some.inj h),
        fun h => absurd rfl h⟩

theorem exponentSign_cases (chars : List Char) : ∃ sign : Option Char,
    (∀ ch ∈ sign, ch = '+' ∨ ch = '-') ∧ chars = sign.toList ++ (exponentSign chars).2 := by
  cases chars with
  | nil => exact ⟨none, nofun, rfl⟩
  | cons ch chars =>
    rw [exponentSign]
    split
    · next hplus =>
      refine ⟨some ch, ?_, rfl⟩
      rintro _ ⟨⟩
      exact .inl hplus
    · split
      · next hminus =>
        refine ⟨some ch, ?_, rfl⟩
        rintro _ ⟨⟩
        exact .inr hminus
      · exact ⟨none, nofun, rfl⟩

theorem exponentPart_cases (chars : List Char) : exponentPart chars = .error .refused ∨
    ∃ (e : Option Exponent) (rest : List Char), chars = exponentText e ++ rest ∧
      (e = none → ∀ ch ∈ rest.head?, ¬ (ch = 'e' ∨ ch = 'E')) ∧ (e ≠ none → NoDigit rest) := by
  cases chars with
  | nil => exact .inr ⟨none, [], rfl, fun _ => nofun, fun h => absurd rfl h⟩
  | cons ch chars =>
    by_cases hletter : ch = 'e' ∨ ch = 'E'
    · obtain hrefused | ⟨ds, rest, hchars, hrest⟩ :=
        someDigits_cases processExponentDigit (exponentSign chars).2
      · left
        rw [exponentPart, if_pos hletter, hrefused]
        rfl
      · obtain ⟨sign, hsign, hsigned⟩ := exponentSign_cases chars
        refine .inr ⟨some ⟨ch, hletter, sign, hsign, ds⟩, rest, ?_,
          fun h => absurd h (Option.some_ne_none _), fun _ => hrest⟩
        rw [exponentText, List.cons_append, List.append_assoc, ← hchars, ← hsigned]
    · refine .inr ⟨none, ch :: chars, rfl, ?_, fun h => absurd rfl h⟩
      rintro - _ ⟨⟩
      exact hletter

/-! ## The value -/

/-- All the digits of a number. -/
def JsonNumber.allDigits (n : JsonNumber) : ℕ :=
  digitsFrom n.integer.value (fractionDigits n.fraction)

/-- The value in terms of what the parser has after the exponent. -/
theorem JsonNumber.value_mul (n : JsonNumber) (m tz : ℕ) (h : m * 10 ^ tz = n.allDigits)
    (decimals : ℤ) : n.value * 10 ^ decimals = (if n.negative then -1 else 1) *
      (m * 10 ^ (exponentValue n.exponent - (fractionDigits n.fraction).length + tz + decimals)) := by
  have hchars : ∀ ch ∈ fractionDigits n.fraction, ch.isDigit = true := by
    cases n.fraction with
    | none => nofun
    | some ds => exact ds.isDigit
  have hsplit := digitsFrom_eq n.integer.value hchars
  have hten : (10 : ℚ) ≠ 0 := by norm_num
  have hdigits : (m : ℚ) * 10 ^ tz = n.integer.value * 10 ^ (fractionDigits n.fraction).length +
      digitsFrom 0 (fractionDigits n.fraction) := by
    rw [JsonNumber.allDigits, hsplit] at h
    exact_mod_cast h
  rw [zpow_add₀ hten, zpow_add₀ hten, zpow_sub₀ hten, zpow_natCast, zpow_natCast, value]
  generalize (10 : ℚ) ^ exponentValue n.exponent = e
  generalize (10 : ℚ) ^ decimals = d
  have hpow : (10 : ℚ) ^ (fractionDigits n.fraction).length ≠ 0 := pow_ne_zero _ hten
  have hmantissa : (n.integer.value : ℚ) + digitsFrom 0 (fractionDigits n.fraction) /
      10 ^ (fractionDigits n.fraction).length =
        m * 10 ^ tz / 10 ^ (fractionDigits n.fraction).length := by
    rw [hdigits]
    field_simp
  rw [hmantissa]
  ring

/-- Without an exponent, an amount that is an integer is one of the digits and zeros. -/
theorem JsonNumber.natAbs_mul (n : JsonNumber) (hexp : n.exponent = none) {decimals : ℕ}
    {amount : ℤ} (h : n.value * 10 ^ (decimals : ℤ) = amount) :
    amount.natAbs * 10 ^ (fractionDigits n.fraction).length = n.allDigits * 10 ^ decimals := by
  have hten : (10 : ℚ) ≠ 0 := by norm_num
  have hvalue := n.value_mul n.allDigits 0 (Nat.mul_one _) decimals
  rw [h, hexp, exponentValue, Nat.cast_zero, add_zero, zero_sub, zpow_add₀ hten, zpow_neg,
    zpow_natCast, zpow_natCast] at hvalue
  have habs : (amount.natAbs : ℚ) = n.allDigits *
      ((10 ^ (fractionDigits n.fraction).length)⁻¹ * 10 ^ decimals) := by
    rw [Nat.cast_natAbs, Int.cast_abs, hvalue, abs_mul]
    have hsign : |(if n.negative then -1 else 1 : ℚ)| = 1 := by
      cases n.negative with
      | false => exact abs_one
      | true => exact abs_neg 1 |>.trans abs_one
    rw [hsign, one_mul]
    apply abs_of_nonneg
    positivity
  have hpow : (10 : ℚ) ^ (fractionDigits n.fraction).length ≠ 0 := pow_ne_zero _ hten
  have hcast : (amount.natAbs : ℚ) * 10 ^ (fractionDigits n.fraction).length =
      n.allDigits * 10 ^ decimals := by
    rw [habs]
    field_simp
  exact_mod_cast hcast

/-- Zeros that can be taken away from a number that does not end in one. -/
theorem eq_mul_of_mul_eq {a len m e : ℕ} (h : a * 10 ^ len = m * 10 ^ e) (hm : m % 10 ≠ 0) :
    len ≤ e ∧ a = m * 10 ^ (e - len) := by
  have hpos : ∀ k, 0 < 10 ^ k := fun k => Nat.pos_of_ne_zero (pow_ne_zero k (by decide))
  obtain hle | hlt := le_or_gt len e
  · refine ⟨hle, ?_⟩
    obtain ⟨k, rfl⟩ := Nat.exists_eq_add_of_le hle
    rw [Nat.add_sub_cancel_left]
    apply Nat.eq_of_mul_eq_mul_right (hpos len)
    rw [h, pow_add]
    ring
  · exfalso
    obtain ⟨k, rfl⟩ := Nat.exists_eq_add_of_lt hlt
    have hsame : a * 10 ^ k * 10 = m := by
      apply Nat.eq_of_mul_eq_mul_right (hpos e)
      rw [← h]
      ring
    omega

/-- A number with a digit too many is too large, or not an integer. -/
theorem Long.le_of_mul_eq {N a len decimals : ℕ} (h : Long N)
    (heq : a * 10 ^ len = N * 10 ^ decimals) : 10 ^ 18 ≤ a := by
  obtain ⟨D, k, r, rfl, hr, hD, hmod⟩ := h
  have hpos : ∀ k, 0 < 10 ^ k := fun k => Nat.pos_of_ne_zero (pow_ne_zero k (by decide))
  obtain hle | hlt := le_or_gt len (k + decimals)
  · refine hD.trans (Nat.le_of_mul_le_mul_right ?_ (hpos len))
    calc D * 10 ^ len ≤ D * 10 ^ (k + decimals) :=
          Nat.mul_le_mul_left D (Nat.pow_le_pow_right (by decide) hle)
      _ = D * 10 ^ k * 10 ^ decimals := by rw [pow_add, mul_assoc]
      _ ≤ (D * 10 ^ k + r) * 10 ^ decimals := Nat.mul_le_mul_right _ (Nat.le_add_right _ _)
      _ = a * 10 ^ len := heq.symm
  · -- then nothing follows the digit, and it is a zero
    exfalso
    obtain ⟨j, rfl⟩ := Nat.exists_eq_add_of_lt hlt
    have hsame : a * 10 ^ j * 10 * 10 ^ k = D * 10 ^ k + r := by
      apply Nat.eq_of_mul_eq_mul_right (hpos decimals)
      rw [← heq]
      ring
    have hr0 : r = 0 := by
      have := congrArg (fun x => x % 10 ^ k) hsame
      rw [Nat.mul_mod_left, Nat.mul_add_mod_self_right, Nat.mod_eq_of_lt hr] at this
      exact this.symm
    rw [hr0, add_zero] at hsame
    have := Nat.eq_of_mul_eq_mul_right (hpos k) hsame
    omega

/-! ## The parser is exact -/

theorem length_beforeEnd_lt (val : List Char) : (beforeEnd val).length < 2 ^ 31 := by
  have hlt := Int.bmod_lt (x := val.length) (m := 2 ^ 32) (by decide)
  rw [beforeEnd, List.length_take]
  omega

/-- Strings that are not too long are read to their end. -/
theorem beforeEnd_eq {val : List Char} (h : val.length < 2 ^ 30) : beforeEnd val = val := by
  have hsize : Int.bmod val.length (2 ^ 32) = val.length := by
    apply Int.bmod_eq_of_le
    all_goals omega
  rw [beforeEnd, hsize, Int.toNat_natCast, List.take_length]

attribute [local irreducible] beforeEnd

/-- What is returned for the text of a number, and when nothing is. -/
theorem JsonNumber.parse_spec (n : JsonNumber) {val rest : List Char}
    (hval : beforeEnd val = n.text ++ rest) (hrest : n.Before rest) (decimals : ℤ)
    (hdec0 : -2 ^ 31 ≤ decimals) (hdec : decimals < 2 ^ 31) :
    Returns (parseFixedPoint val decimals)
      (n.exponent = none → rest = [] → ∀ d : ℕ, d ≤ 17 → decimals = d → ∀ amount : ℤ,
        n.value * 10 ^ decimals = amount → 10 ^ 18 ≤ amount.natAbs) fun out =>
      rest = [] ∧ n.value * 10 ^ decimals = out ∧ out.natAbs < 10 ^ 18 := by
  have hlen := length_beforeEnd_lt val
  have hsign : minusSign (beforeEnd val) = (n.negative, n.integer.chars ++
      (fractionText n.fraction ++ (exponentText n.exponent ++ rest))) := by
    rw [hval, JsonNumber.text, List.append_assoc, List.append_assoc, List.append_assoc]
    exact minusSign_append _ _ _
  have hparts : n.integer.chars.length + (fractionDigits n.fraction).length < 2 ^ 31 := by
    have hfraction : (fractionDigits n.fraction).length ≤ (fractionText n.fraction).length := by
      cases n.fraction with
      | none => exact le_rfl
      | some ds => exact Nat.le_succ _
    rw [hval, JsonNumber.text] at hlen
    simp only [List.length_append] at hlen
    omega
  -- a refusal of the scanner
  have hlong : Long n.allDigits → n.exponent = none → rest = [] → ∀ d : ℕ, d ≤ 17 →
      decimals = d → ∀ amount : ℤ, n.value * 10 ^ decimals = amount → 10 ^ 18 ≤ amount.natAbs := by
    rintro hlong hexp - d - rfl amount hamount
    exact hlong.le_of_mul_eq (n.natAbs_mul hexp hamount)
  have hdigits : ∀ ch ∈ fractionDigits n.fraction, ch.isDigit = true := by
    cases n.fraction with
    | none => nofun
    | some ds => exact ds.isDigit
  rw [parseFixedPoint, hsign]
  refine Returns.bind ((integerPart_spec n.integer n.no_leading_zero hrest.integer (by omega)).mono
    (fun h => hlong (h.digitsFrom hdigits)) fun _ => id) ?_
  rintro ⟨scan, _⟩ ⟨rfl, count, hcount, hzero, hscan⟩
  refine Returns.bind ((fractionPart_spec hscan n.fraction hrest.no_fraction hrest.fraction
    (by omega)).mono hlong fun _ => id) ?_
  rintro ⟨⟨scan', pointOfs⟩, _⟩ ⟨rfl, ⟨m, tz, rfl, hm, hlt, htz, hmod⟩, rfl⟩
  refine Returns.bind ((exponentPart_spec n.exponent hrest.no_exponent hrest.exponent).mono
    (fun h hexp => absurd hexp h) fun _ => id) ?_
  rintro ⟨⟨expSign, e⟩, _⟩ ⟨rfl, hvalue, he0, he⟩
  dsimp only at hvalue he0 he ⊢
  split
  · next hne => exact fun _ hnil => absurd hnil hne
  · next hnil =>
    have hfinal := finalize_spec tz (fractionDigits n.fraction).length hlt
      (by omega) (by omega) he0 he hdec0 hdec n.negative expSign rfl
    rw [hvalue] at hfinal
    have hmul := n.value_mul m tz hm decimals
    apply hfinal.mono
    · rintro hrefused hexp - d hd rfl amount hamount
      have hnat := n.natAbs_mul hexp hamount
      rw [hexp, exponentValue] at hrefused
      change _ = digitsFrom _ _ * _ at hnat
      rw [← hm, mul_assoc, ← pow_add] at hnat
      obtain ⟨rfl, htz⟩ | hmod := hmod
      · -- zero is not refused
        have hcount0 : count = 0 := by
          apply hzero
          by_contra hne
          have : 0 < digitsFrom n.integer.value (fractionDigits n.fraction) :=
            digitsFrom_pos (Nat.pos_of_ne_zero hne)
          omega
        omega
      · obtain ⟨hle, hamount⟩ := eq_mul_of_mul_eq hnat hmod
        have hX : (0 - ((fractionDigits n.fraction).length : ℤ) + tz + d).toNat =
            tz + d - (fractionDigits n.fraction).length := by omega
        rw [hX, ← hamount] at hrefused
        obtain hneg | hlarge | hlarge := hrefused
        · omega
        · rw [hamount]
          calc 10 ^ 18 ≤ 10 ^ (tz + d - (fractionDigits n.fraction).length) :=
                Nat.pow_le_pow_right (by decide) (by omega)
            _ ≤ m * 10 ^ (tz + d - (fractionDigits n.fraction).length) :=
                Nat.le_mul_of_pos_left _ (by omega)
        · exact hlarge
    · rintro out ⟨hX, rfl, hsmall⟩
      refine ⟨not_not.mp hnil, ?_, ?_⟩
      · rw [hmul]
        lift (exponentValue n.exponent - (fractionDigits n.fraction).length + tz + decimals) to ℕ
          using hX with X
        rw [zpow_natCast, Int.toNat_natCast]
        cases n.negative with
        | false => push_cast; rfl
        | true => push_cast; rfl
      · rw [Int.natAbs_mul, Int.natAbs_natCast]
        cases n.negative with
        | false => rwa [if_neg Bool.false_ne_true, Int.natAbs_one, one_mul]
        | true => rwa [if_pos rfl, Int.natAbs_neg, Int.natAbs_one, one_mul]

/-- Whatever the text is, only a number is accepted. -/
theorem parseFixedPoint_cases (val : List Char) (decimals : ℤ) (hdec0 : -2 ^ 31 ≤ decimals)
    (hdec : decimals < 2 ^ 31) : Returns (parseFixedPoint val decimals) True fun _ =>
      ∃ n : JsonNumber, n.text = beforeEnd val := by
  have hlen := length_beforeEnd_lt val
  have hsign := minusSign_cases (beforeEnd val)
  generalize hsigned : minusSign (beforeEnd val) = signed at hsign
  obtain ⟨negative, chars⟩ := signed
  obtain hrefused | ⟨int, rest, rfl, hlead, hnext⟩ := integerPart_cases chars
  · rw [parseFixedPoint, hsigned, hrefused]
    exact returns_refused trivial
  have hlength := congrArg List.length hsign
  rw [List.length_append, List.length_append] at hlength
  obtain hrefused | ⟨f, rest', rfl, hnof, hf⟩ := fractionPart_cases rest
  · rw [parseFixedPoint, hsigned]
    refine Returns.bind ((integerPart_spec int hlead hnext (by omega)).mono (fun _ => trivial)
      fun _ => id) ?_
    rintro r ⟨hr, -⟩
    rw [hr, hrefused]
    exact returns_refused trivial
  have hfraction : (fractionDigits f).length ≤ (fractionText f).length := by
    cases f with
    | none => exact le_rfl
    | some ds => exact Nat.le_succ _
  rw [List.length_append] at hlength
  obtain hrefused | ⟨e, rest, rfl, hnoe, he⟩ := exponentPart_cases rest'
  · rw [parseFixedPoint, hsigned]
    refine Returns.bind ((integerPart_spec int hlead hnext (by omega)).mono (fun _ => trivial)
      fun _ => id) ?_
    rintro ⟨scan, _⟩ ⟨rfl, count, hcount, -, hscan⟩
    refine Returns.bind ((fractionPart_spec hscan f hnof hf (by omega)).mono (fun _ => trivial)
      fun _ => id) ?_
    rintro r ⟨hr, -⟩
    rw [hr, hrefused]
    exact returns_refused trivial
  have hval : beforeEnd val = JsonNumber.text ⟨negative, int, hlead, f, e⟩ ++ rest := by
    rw [JsonNumber.text, List.append_assoc, List.append_assoc, List.append_assoc]
    exact hsign
  have hspec := JsonNumber.parse_spec ⟨negative, int, hlead, f, e⟩ hval
    ⟨hnext, hnof, hf, hnoe, he⟩ decimals hdec0 hdec
  refine hspec.mono (fun _ => trivial) ?_
  rintro out ⟨rfl, -, -⟩
  exact ⟨_, (List.append_nil _).symm.trans hval.symm⟩

/-- `ParseFixedPoint` never overflows.  An amount that it returns is the exact value of a JSON number
and within the bound, and it returns one for every number without an exponent that has such a
value. -/
theorem parseFixedPoint_spec (val : List Char) :
    (∀ decimals : ℤ, -2 ^ 31 ≤ decimals → decimals < 2 ^ 31 →
      parseFixedPoint val decimals ≠ .error .overflow) ∧
    (val.length < 2 ^ 30 → ∀ decimals : ℕ, decimals ≤ 17 →
      (∀ out, parseFixedPoint val decimals = .ok out →
        (∃ n : JsonNumber, n.text = val) ∧ |out| ≤ 10 ^ 18 - 1 ∧
          ∀ n : JsonNumber, n.text = val → n.value * 10 ^ decimals = out) ∧
      ∀ n : JsonNumber, n.text = val → n.exponent = none →
        ∀ amount : ℤ, n.value * 10 ^ decimals = amount → |amount| ≤ 10 ^ 18 - 1 →
          ∃ out, parseFixedPoint val decimals = .ok out) := by
  constructor
  · intro decimals hdec0 hdec hoverflow
    have hcases := parseFixedPoint_cases val decimals hdec0 hdec
    rw [hoverflow] at hcases
    exact hcases
  · intro hlen decimals hdecimals
    have hcases := parseFixedPoint_cases val decimals (by omega) (by omega)
    rw [beforeEnd_eq hlen] at hcases
    have hspec : ∀ n : JsonNumber, n.text = val → Returns (parseFixedPoint val decimals)
        (n.exponent = none → ∀ amount : ℤ, n.value * 10 ^ decimals = amount →
          10 ^ 18 ≤ amount.natAbs) fun out =>
        n.value * 10 ^ decimals = out ∧ out.natAbs < 10 ^ 18 := by
      intro n hn
      have hval : beforeEnd val = n.text ++ [] := by
        rw [beforeEnd_eq hlen, hn, List.append_nil]
      have := n.parse_spec hval n.before_nil decimals (by omega) (by omega)
      refine this.mono ?_ ?_
      · intro h hexp amount hamount
        exact h hexp rfl decimals hdecimals rfl amount (by rwa [zpow_natCast])
      · rintro out ⟨-, hvalue, hout⟩
        rw [zpow_natCast] at hvalue
        exact ⟨hvalue, hout⟩
    constructor
    · intro out hout
      rw [hout] at hcases hspec
      obtain ⟨n, hn⟩ := hcases
      refine ⟨⟨n, hn⟩, ?_, fun n' hn' => (hspec n' hn').1⟩
      have hlt : out.natAbs < 10 ^ 18 := (hspec n hn).2
      rw [Int.abs_eq_natAbs]
      omega
    · intro n hn hexp amount hamount hbound
      have hn := hspec n hn
      generalize parseFixedPoint val decimals = r at hn hcases
      match r with
      | .ok out => exact ⟨out, rfl⟩
      | .error .overflow => exact absurd hn id
      | .error .refused =>
        have hlarge : 10 ^ 18 ≤ amount.natAbs := hn hexp amount hamount
        rw [Int.abs_eq_natAbs] at hbound
        omega

end

theorem parseFixedPoint_cents :
    parseFixedPoint ['-', '0', '.', '0', '5', '0', 'e', '1'] 8 = .ok (-50000000) := by
  rfl

theorem parseFixedPoint_spec_cents : ∃ n : JsonNumber,
    n.text = ['-', '0', '.', '0', '5', '0', 'e', '1'] ∧ n.value * 10 ^ 8 = ((-50000000 : ℤ) : ℚ) := by
  obtain ⟨⟨n, hn⟩, -, hvalue⟩ := ((parseFixedPoint_spec ['-', '0', '.', '0', '5', '0', 'e', '1']).2
    (by decide) 8 (by decide)).1 (-50000000) parseFixedPoint_cents
  exact ⟨n, hn, hvalue n hn⟩

end FixedPoint
