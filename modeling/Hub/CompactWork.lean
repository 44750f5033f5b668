/-
# Targets, and the work they stand for

The compact form of a target goes through `SetCompact` and `GetCompact`
(`libs/server/arith_uint256.cpp`), and `GetBlockProof` (`libs/server/pow.cpp`) turns the target into
work, `2 ^ 256 / (target + 1)`.  The index adds up the work along `pprev`, in 256 bits.

* `setCompact_getCompact` : what a number loses in its compact form;
* `getCompact_setCompact` : each target has one canonical compact form, and `GetCompact` finds it;
* `getBlockProof_spec` : the work of a target, in words;
* `chainWork_lt` : a block adds work, as long as the sum fits in 256 bits.

Two blocks with the target 1 together have the work `2 ^ 256`, which is stored as 0
(`not_chainWork_lt_targetOne`).
-/
import Hub.ArithUint256

/-! ## The code -/

namespace ArithUint256

/-- `operator~`. -/
def complement (a : ArithUint256) : ArithUint256 where
  pn := a.pn.map (~~~ ·)
  width := (List.length_map _).trans a.width

/-- `GetBlockProof`; nothing is returned for a division by zero. -/
def getBlockProof (nBits : UInt32) : Option ArithUint256 :=
  let (bnTarget, fNegative, fOverflow) := setCompact nBits
  if fNegative || fOverflow || decide (bnTarget = ofUInt64 0) then some (ofUInt64 0)
  else (bnTarget.complement.div (bnTarget.add (ofUInt64 1))).map fun q => q.add (ofUInt64 1)

/-- `nChainWork` of a block, from the `nBits` of the block and of those below it. -/
def chainWork : List UInt32 → Option ArithUint256
  | [] => some (ofUInt64 0)
  | nBits :: below => do
      let work ← chainWork below
      let proof ← getBlockProof nBits
      some (work.add proof)

end ArithUint256

/-! ## What the compact form keeps -/

namespace Compact

/-- At least the highest 16 bits stay. -/
theorem roundCompact_div (v : ℕ) :
    roundCompact v / 2 ^ (v.size - 16) = v / 2 ^ (v.size - 16) := by
  have hsplit : 2 ^ (v.size - 16) =
      2 ^ (8 * (v.size / 8 - 2)) * 2 ^ (v.size - 16 - 8 * (v.size / 8 - 2)) := by
    rw [← pow_add, show 8 * (v.size / 8 - 2) + (v.size - 16 - 8 * (v.size / 8 - 2)) = v.size - 16
      from by omega]
  rw [hsplit, ← Nat.div_div_eq_div_mul, ← Nat.div_div_eq_div_mul, roundCompact,
    Nat.mul_div_cancel _ (Nat.two_pow_pos _)]

/-- A few bits with whole zero bytes behind them stay. -/
theorem roundCompact_of_bytes {m : ℕ} (hm : m < 2 ^ 23) (k : ℕ) :
    roundCompact (m * 2 ^ (8 * k)) = m * 2 ^ (8 * k) := by
  have hsize : (m * 2 ^ (8 * k)).size ≤ 23 + 8 * k := by
    rw [Nat.size_le, pow_add]
    exact Nat.mul_lt_mul_of_pos_right hm (Nat.two_pow_pos _)
  have hdvd : 2 ^ (8 * ((m * 2 ^ (8 * k)).size / 8 - 2)) ∣ m * 2 ^ (8 * k) :=
    Dvd.dvd.mul_left (pow_dvd_pow 2 (by omega)) m
  exact Nat.div_mul_cancel hdvd

/-! ## Canonical forms -/

/-- The mantissa of a compact form, and its size byte. -/
def mantissa (c : UInt32) : ℕ := c.toNat % 2 ^ 23

def sizeByte (c : UInt32) : ℕ := c.toNat / 2 ^ 24

/-- No sign, no size byte that could be smaller, and nothing in bytes that are not read. -/
structure IsCanonical (c : UInt32) : Prop where
  sign : c.toNat / 2 ^ 23 % 2 = 0
  leading : 2 ^ 15 ≤ mantissa c
  unread : 2 ^ (8 * (3 - sizeByte c)) ∣ mantissa c

/-- The compact form of a target, without flags. -/
def Encodes (c : UInt32) (a : ArithUint256) : Prop :=
  ArithUint256.setCompact c = (a, false, false)

/-- What a compact form stands for, as a number. -/
theorem Encodes.toNat {c : UInt32} {a : ArithUint256} (h : Encodes c a) :
    setCompact c = (a.toNat, false, false) := by
  obtain ⟨hvalue, hflags⟩ := setCompact_toNat c
  rw [h] at hvalue hflags
  exact Prod.ext hvalue.symm hflags.symm

theorem encodes_of_toNat {c : UInt32} {a : ArithUint256}
    (h : setCompact c = (a.toNat, false, false)) : Encodes c a := by
  obtain ⟨hvalue, hflags⟩ := setCompact_toNat c
  rw [h] at hvalue hflags
  exact Prod.ext (ArithUint256.toNat_inj hvalue) hflags

/-- The value of a compact form without the flag for an overflow. -/
theorem setCompact_eq (c : UInt32) (hover : (setCompact c).2.2 = false) :
    (setCompact c).1 =
      if sizeByte c ≤ 3 then mantissa c / 2 ^ (8 * (3 - sizeByte c))
      else mantissa c * 2 ^ (8 * (sizeByte c - 3)) := by
  have hsize : c.toNat >>> 24 = sizeByte c := Nat.shiftRight_eq_div_pow _ _
  have hword : c.toNat &&& 0x007fffff = mantissa c := Nat.and_two_pow_sub_one_eq_mod c.toNat 23
  have hlt : mantissa c < 2 ^ 23 := Nat.mod_lt _ (Nat.two_pow_pos 23)
  unfold setCompact at hover ⊢
  simp only at hover ⊢
  rw [hsize, hword] at hover ⊢
  split_ifs at hover ⊢ with h3
  · exact Nat.shiftRight_eq_div_pow _ _
  · rw [Nat.shiftLeft_eq, Nat.mod_eq_of_lt]
    -- nothing is shifted out
    by_cases hzero : mantissa c = 0
    · rw [hzero, Nat.zero_mul]
      exact Nat.two_pow_pos 256
    · have hbounds : sizeByte c ≤ 34 ∧ (sizeByte c = 34 → mantissa c < 2 ^ 8) ∧
          (sizeByte c = 33 → mantissa c < 2 ^ 16) := by
        have hne : (mantissa c != 0) = true := bne_iff_ne.mpr hzero
        rw [hne, Bool.true_and] at hover
        simp only [Bool.or_eq_false_iff, Bool.and_eq_false_iff, decide_eq_false_iff_not] at hover
        omega
      obtain ⟨hle, h34, h33⟩ := hbounds
      have hfit : mantissa c < 2 ^ (256 - 8 * (sizeByte c - 3)) := by
        by_cases hs34 : sizeByte c = 34
        · rw [hs34]
          exact h34 hs34
        · by_cases hs33 : sizeByte c = 33
          · rw [hs33]
            exact h33 hs33
          · exact lt_of_lt_of_le hlt (Nat.pow_le_pow_right (by decide) (by omega))
      calc mantissa c * 2 ^ (8 * (sizeByte c - 3))
          < 2 ^ (256 - 8 * (sizeByte c - 3)) * 2 ^ (8 * (sizeByte c - 3)) :=
            Nat.mul_lt_mul_of_pos_right hfit (Nat.two_pow_pos _)
        _ = 2 ^ 256 := by
            rw [← pow_add, show 256 - 8 * (sizeByte c - 3) + 8 * (sizeByte c - 3) = 256 from by omega]

/-- A target loses nothing in its compact form. -/
theorem roundCompact_setCompact {c : UInt32} (hover : (setCompact c).2.2 = false) :
    roundCompact (setCompact c).1 = (setCompact c).1 := by
  have hlt : mantissa c < 2 ^ 23 := Nat.mod_lt _ (Nat.two_pow_pos 23)
  rw [setCompact_eq c hover]
  split_ifs with h3
  · have hsmall : mantissa c / 2 ^ (8 * (3 - sizeByte c)) < 2 ^ 23 :=
      lt_of_le_of_lt (Nat.div_le_self _ _) hlt
    have hbytes := roundCompact_of_bytes hsmall 0
    rwa [Nat.mul_zero, Nat.pow_zero, Nat.mul_one] at hbytes
  · exact roundCompact_of_bytes hlt _

/-- The value of a canonical form determines it. -/
theorem IsCanonical.inj {c d : UInt32} (hc : IsCanonical c) (hd : IsCanonical d)
    (hcover : (setCompact c).2.2 = false) (hdover : (setCompact d).2.2 = false)
    (h : (setCompact c).1 = (setCompact d).1) : c = d := by
  -- the value, three bytes up
  have hscaled : ∀ {c : UInt32}, IsCanonical c → (setCompact c).2.2 = false →
      (setCompact c).1 * 2 ^ 24 = mantissa c * 2 ^ (8 * sizeByte c) := by
    intro c hc hover
    rw [setCompact_eq c hover]
    split_ifs with h3
    · have hsplit : 2 ^ 24 = 2 ^ (8 * (3 - sizeByte c)) * 2 ^ (8 * sizeByte c) := by
        rw [← pow_add, show 8 * (3 - sizeByte c) + 8 * sizeByte c = 24 from by omega]
      rw [hsplit, ← Nat.mul_assoc, Nat.div_mul_cancel hc.unread]
    · rw [Nat.mul_assoc, ← pow_add, show 8 * (sizeByte c - 3) + 24 = 8 * sizeByte c from by omega]
  have hle : ∀ {c d : UInt32}, IsCanonical d →
      mantissa c * 2 ^ (8 * sizeByte c) = mantissa d * 2 ^ (8 * sizeByte d) →
      sizeByte d ≤ sizeByte c := by
    intro c d hd heq
    by_contra hlt
    -- a smaller size byte would need a longer mantissa
    have hsplit : 2 ^ (8 * sizeByte d) =
        2 ^ (8 * (sizeByte d - sizeByte c)) * 2 ^ (8 * sizeByte c) := by
      rw [← pow_add, show 8 * (sizeByte d - sizeByte c) + 8 * sizeByte c = 8 * sizeByte d
        from by omega]
    rw [hsplit, ← Nat.mul_assoc] at heq
    have hmantissa := Nat.eq_of_mul_eq_mul_right (Nat.two_pow_pos _) heq
    have hlong : 2 ^ 15 * 2 ^ 8 ≤ mantissa d * 2 ^ (8 * (sizeByte d - sizeByte c)) :=
      Nat.mul_le_mul hd.leading (Nat.pow_le_pow_right (by decide) (by omega))
    have hshort : mantissa c < 2 ^ 23 := Nat.mod_lt _ (Nat.two_pow_pos 23)
    omega
  have heq : mantissa c * 2 ^ (8 * sizeByte c) = mantissa d * 2 ^ (8 * sizeByte d) := by
    rw [← hscaled hc hcover, ← hscaled hd hdover, h]
  have hsize : sizeByte c = sizeByte d := le_antisymm (hle hc heq.symm) (hle hd heq)
  rw [hsize] at heq
  have hmantissa := Nat.eq_of_mul_eq_mul_right (Nat.two_pow_pos _) heq
  apply UInt32.toNat_inj.mp
  have hcsign := hc.sign
  have hdsign := hd.sign
  unfold sizeByte at hsize
  unfold mantissa at hmantissa
  omega

/-- **`GetCompact`** gives the canonical form. -/
theorem isCanonical_of_parts {c : UInt32} {v : ℕ} (hpos : 0 < v)
    (hc : c.toNat = compactSize v * 2 ^ 24 + leadingBytes v (compactSize v)) : IsCanonical c := by
  have hlt := leadingBytes_compactSize_lt v
  have hmantissa : mantissa c = leadingBytes v (compactSize v) := by
    unfold mantissa
    omega
  have hsize : sizeByte c = compactSize v := by
    unfold sizeByte
    omega
  have hcompact : compactSize v = v.size / 8 + 1 := if_neg hpos.ne'
  refine ⟨by omega, ?_, ?_⟩
  · -- the highest bit is among the highest 16 of the mantissa, or above
    rw [hmantissa]
    have hlow : 2 ^ (v.size - 1) ≤ v := Nat.lt_size.mp (Nat.sub_one_lt (Nat.size_pos.mpr hpos).ne')
    have hsizePos := Nat.size_pos.mpr hpos
    unfold leadingBytes
    split_ifs with h3
    · calc 2 ^ 15 ≤ 2 ^ (v.size - 1 + 8 * (3 - compactSize v)) :=
            Nat.pow_le_pow_right (by decide) (by omega)
        _ = 2 ^ (v.size - 1) * 2 ^ (8 * (3 - compactSize v)) := pow_add _ _ _
        _ ≤ v * 2 ^ (8 * (3 - compactSize v)) := Nat.mul_le_mul_right _ hlow
    · rw [Nat.le_div_iff_mul_le (Nat.two_pow_pos _), ← pow_add]
      exact le_trans (Nat.pow_le_pow_right (by decide) (by omega)) hlow
  · rw [hmantissa, hsize]
    unfold leadingBytes
    split_ifs with h3
    · exact Dvd.intro_left v rfl
    · rw [show 8 * (3 - compactSize v) = 0 from by omega, Nat.pow_zero]
      exact one_dvd _

/-- **A number, to the compact form and back.** -/
theorem setCompact_getCompact (x : ArithUint256) : ∃ c y, x.getCompact = some c ∧ Encodes c y ∧
    y.toNat = roundCompact x.toNat := by
  obtain ⟨c, hc, hread⟩ := getCompact_spec x
  have hencodes : Encodes c (ArithUint256.setCompact c).1 := by
    apply encodes_of_toNat
    rw [(setCompact_toNat c).1, hread]
  refine ⟨c, _, hc, hencodes, ?_⟩
  rw [(setCompact_toNat c).1, hread]

/-- **A compact form, to the target and back.** -/
theorem getCompact_setCompact {c : UInt32} {y : ArithUint256} (h : Encodes c y)
    (hne : y.toNat ≠ 0) : ∃ d, y.getCompact = some d ∧ Encodes d y ∧ IsCanonical d ∧
      ∀ e, IsCanonical e → Encodes e y → e = d := by
  obtain ⟨d, hd, hparts⟩ := getCompact_parts y
  have hread := h.toNat
  have hround : roundCompact y.toNat = y.toNat := by
    have := roundCompact_setCompact (c := c) (by rw [hread])
    rwa [hread] at this
  have hdread : Encodes d y := by
    obtain ⟨d', hd', hspec⟩ := getCompact_spec y
    obtain rfl := Option.some.inj (hd.symm.trans hd')
    rw [hround] at hspec
    exact encodes_of_toNat hspec
  have hcanonical := isCanonical_of_parts (Nat.pos_of_ne_zero hne) hparts
  refine ⟨d, hd, hdread, hcanonical, fun e he heread => ?_⟩
  exact he.inj hcanonical (by rw [heread.toNat]) (by rw [hdread.toNat])
    (by rw [heread.toNat, hdread.toNat])

end Compact

/-! ## The work of a target -/

namespace ArithUint256

open Compact

theorem toNat_complement (a : ArithUint256) : a.complement.toNat = 2 ^ 256 - 1 - a.toNat := by
  have hsum := BaseUint.toNat_complement a.pn
  rw [a.width] at hsum
  show BaseUint.toNat (a.pn.map (~~~ ·)) = 2 ^ 256 - 1 - BaseUint.toNat a.pn
  omega

/-- One more than a target fits in 256 bits. -/
theorem toNat_succ_lt {c : UInt32} {t : ArithUint256} (h : Encodes c t) : t.toNat + 1 < 2 ^ 256 := by
  have hread := h.toNat
  have hvalue := setCompact_eq c (by rw [hread])
  rw [hread] at hvalue
  simp only at hvalue
  have hlt := t.toNat_lt
  have hmantissa : mantissa c < 2 ^ 23 := Nat.mod_lt _ (Nat.two_pow_pos 23)
  split_ifs at hvalue with h3
  · have hle := Nat.div_le_self (mantissa c) (2 ^ (8 * (3 - sizeByte c)))
    omega
  · -- the lowest byte is zero
    have hbyte : 2 ^ (8 * (sizeByte c - 3)) = 2 ^ (8 * (sizeByte c - 4)) * 2 ^ 8 := by
      rw [← pow_add, show 8 * (sizeByte c - 4) + 8 = 8 * (sizeByte c - 3) from by omega]
    rw [hbyte, ← Nat.mul_assoc] at hvalue
    omega

/-- The quotient that `GetBlockProof` computes, without the number `2 ^ 256`. -/
theorem div_add_one {t : ℕ} (h : t + 1 < 2 ^ 256) :
    (2 ^ 256 - 1 - t) / (t + 1) + 1 = 2 ^ 256 / (t + 1) := by
  rw [← Nat.add_div_right _ (Nat.succ_pos _), show 2 ^ 256 - 1 - t + (t + 1) = 2 ^ 256 from by omega]

/-- **`GetBlockProof`** divides `2 ^ 256` by one more than the target. -/
theorem getBlockProof_spec {c : UInt32} {t : ArithUint256} (h : Encodes c t) (hpos : 0 < t.toNat) :
    ∃ p, getBlockProof c = some p ∧ p.toNat = 2 ^ 256 / (t.toNat + 1) := by
  have hsucc := toNat_succ_lt h
  have hzero : (ofUInt64 0).toNat = 0 := rfl
  have hone : (ofUInt64 1).toNat = 1 := rfl
  have hne : ¬ t = ofUInt64 0 := by
    rintro rfl
    omega
  have hadd : (t.add (ofUInt64 1)).toNat = t.toNat + 1 := by
    rw [toNat_add (by rw [hone]; exact hsucc), hone]
  obtain ⟨q, hq, hquotient⟩ := div_eq (a := t.complement) (b := t.add (ofUInt64 1)) (by omega)
  rw [hadd, toNat_complement] at hquotient
  have hplus : q.toNat + 1 = 2 ^ 256 / (t.toNat + 1) := by
    rw [hquotient, div_add_one hsucc]
  have hfit : 2 ^ 256 / (t.toNat + 1) < 2 ^ 256 := Nat.div_lt_self (Nat.two_pow_pos 256) (by omega)
  refine ⟨q.add (ofUInt64 1), ?_, ?_⟩
  · rw [getBlockProof, h]
    simp only [Bool.or_self, Bool.false_or, decide_eq_true_eq]
    rw [if_neg hne, hq, Option.map_some]
  · rw [toNat_add (by rw [hone]; omega), hone, hplus]

/-- A target takes at least one hash. -/
theorem one_le_div {t : ℕ} (h : t + 1 < 2 ^ 256) : 1 ≤ 2 ^ 256 / (t + 1) :=
  Nat.div_pos h.le (Nat.succ_pos t)

/-! ## The work of a chain -/

/-- **A block adds work** to the chain below it, as long as the sum fits. -/
theorem chainWork_lt {c : UInt32} {t w : ArithUint256} {below : List UInt32} (h : Encodes c t)
    (hpos : 0 < t.toNat) (hw : chainWork below = some w)
    (hfit : w.toNat + 2 ^ 256 / (t.toNat + 1) < 2 ^ 256) :
    ∃ w', chainWork (c :: below) = some w' ∧ w.toNat < w'.toNat := by
  obtain ⟨p, hp, hproof⟩ := getBlockProof_spec h hpos
  have hone := one_le_div (toNat_succ_lt h)
  refine ⟨w.add p, ?_, ?_⟩
  · rw [chainWork, hw, hp]
    rfl
  · rw [toNat_add (by rw [hproof]; exact hfit), hproof]
    omega

/-- **Targets and work.**  What a number keeps in its compact form; the one canonical compact form of
a target; the work of a target; and the work of a chain, which grows as long as it fits in 256
bits. -/
theorem compact_and_work :
    (∀ x : ArithUint256, ∃ c y, x.getCompact = some c ∧ Encodes c y ∧ y.toNat ≤ x.toNat ∧
      y.toNat / 2 ^ (x.bits - 16) = x.toNat / 2 ^ (x.bits - 16) ∧
      ∀ m k, m < 2 ^ 15 → x.toNat = m * 2 ^ (8 * k) → y = x) ∧
    (∀ c y, Encodes c y → y.toNat ≠ 0 → ∃ d, y.getCompact = some d ∧ Encodes d y ∧
      IsCanonical d ∧ ∀ e, IsCanonical e → Encodes e y → e = d) ∧
    (∀ c t, Encodes c t → 0 < t.toNat → ∃ p, getBlockProof c = some p ∧
      p.toNat = 2 ^ 256 / (t.toNat + 1) ∧ 1 ≤ p.toNat) ∧
    (∀ c d t u p q, Encodes c t → Encodes d u → 0 < t.toNat → t.toNat ≤ u.toNat →
      getBlockProof c = some p → getBlockProof d = some q → q.toNat ≤ p.toNat) ∧
    (∀ c t below w, Encodes c t → 0 < t.toNat → chainWork below = some w →
      w.toNat + 2 ^ 256 / (t.toNat + 1) < 2 ^ 256 →
      ∃ w', chainWork (c :: below) = some w' ∧ w.toNat < w'.toNat) := by
  refine ⟨fun x => ?_, fun c y h hne => getCompact_setCompact h hne, fun c t h hpos => ?_,
    fun c d t u p q hc hd hpos hle hp hq => ?_, fun c t below w h hpos hw hfit =>
      chainWork_lt h hpos hw hfit⟩
  · obtain ⟨c, y, hc, hread, hvalue⟩ := setCompact_getCompact x
    refine ⟨c, y, hc, hread, ?_, ?_, fun m k hm hx => ?_⟩
    · rw [hvalue]
      exact roundCompact_le _
    · rw [hvalue, bits_eq]
      exact roundCompact_div _
    · apply toNat_inj
      rw [hvalue, hx]
      exact roundCompact_of_bytes (lt_trans hm (by decide)) k
  · obtain ⟨p, hp, hproof⟩ := getBlockProof_spec h hpos
    exact ⟨p, hp, hproof, hproof ▸ one_le_div (toNat_succ_lt h)⟩
  · obtain ⟨p', hp', hproof⟩ := getBlockProof_spec hc hpos
    obtain ⟨q', hq', hproof'⟩ := getBlockProof_spec hd (lt_of_lt_of_le hpos hle)
    obtain rfl := Option.some.inj (hp.symm.trans hp')
    obtain rfl := Option.some.inj (hq.symm.trans hq')
    rw [hproof, hproof']
    exact Nat.div_le_div_left (by omega) (Nat.succ_pos _)

/-- The compact form of the target 1. -/
def targetOne : UInt32 := 0x01010000

theorem encodes_targetOne : Encodes targetOne (ofUInt64 1) := by
  apply encodes_of_toNat
  decide

/-- **The sum wraps around.**  On a block with the target 1, another one gives the chain work 0. -/
theorem not_chainWork_lt_targetOne :
    ¬ ∀ c t below w, Encodes c t → 0 < t.toNat → chainWork below = some w →
      ∃ w', chainWork (c :: below) = some w' ∧ w.toNat < w'.toNat := by
  intro h
  obtain ⟨p, hp, hproof⟩ := getBlockProof_spec encodes_targetOne (by decide)
  have hvalue : p.toNat = 2 ^ 255 := hproof.trans (by rw [show (ofUInt64 1).toNat = 1 from rfl]; rfl)
  have hbelow : chainWork [targetOne] = some ((ofUInt64 0).add p) := by
    rw [chainWork, hp]
    rfl
  have hwork : ((ofUInt64 0).add p).toNat = 2 ^ 255 := by
    have hzero : (ofUInt64 0).toNat = 0 := rfl
    rw [toNat_add (by rw [hzero]; omega), hzero, hvalue, Nat.zero_add]
  obtain ⟨w, hw, hlt⟩ := h targetOne (ofUInt64 1) [targetOne] _ encodes_targetOne (by decide) hbelow
  rw [chainWork, hbelow, hp] at hw
  obtain rfl := Option.some.inj hw
  have hsum := BaseUint.toNat_add ((((ofUInt64 0).add p).width).trans p.width.symm)
  have hzero : (((ofUInt64 0).add p).add p).toNat = 0 := by
    rw [toNat, add, hsum, ((ofUInt64 0).add p).width]
    show (((ofUInt64 0).add p).toNat + p.toNat) % 2 ^ (32 * 8) = 0
    rw [hwork, hvalue]
    rfl
  omega

end ArithUint256

