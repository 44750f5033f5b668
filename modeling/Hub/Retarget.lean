/-
# Retargeting before the newer rule

A chain of headers whose targets `GetNextWorkRequired` has set one after the other with the older
rules (`libs/server/pow.cpp`).  Up to the first retarget all of them are the limit
(`nBits_eq_limit`), which is why the emergency rule always finds the block six blocks back.
-/
import Hub.Pow

open LockTime Compact

namespace Pow

section

variable {ι : Type} {T : BlockIndex ι} {nTime nBits : ι → UInt32} {params : Params}

/-- A target within the limit that `GetCompact` has written. -/
def IsWritten (params : Params) (nBits : UInt32) : Prop :=
  IsTarget params nBits ∧ roundCompact (setCompact nBits).1 = (setCompact nBits).1

/-- The new target is a fourth of the old one up to four times the old one, before it is
rounded. -/
def WithinFour (old new : UInt32) : Prop :=
  ∃ x, (setCompact old).1 / 4 ≤ x ∧ x ≤ 4 * (setCompact old).1 ∧
    (setCompact new).1 = roundCompact x

theorem IsWritten.within_self {bits : UInt32} (h : IsWritten params bits) : WithinFour bits bits :=
  ⟨(setCompact bits).1, Nat.div_le_self _ _, by omega, h.2.symm⟩

/-- A number that is cut off at the limit and written. -/
theorem written_of_limit (params : Params) (a : ArithUint256) (hpos : 0 < a.toNat)
    (hlimit : 0 < params.powLimit.toNat) :
    ∃ c, (if a.gt params.powLimit then params.powLimit else a).getCompact = some c ∧
      IsWritten params c ∧ (setCompact c).1 = roundCompact (min a.toNat params.powLimit.toNat) := by
  have hmin : (if a.gt params.powLimit then params.powLimit else a).toNat =
      min a.toNat params.powLimit.toNat := by
    rw [ArithUint256.gt_eq]
    by_cases hmore : params.powLimit.toNat < a.toNat
    · rw [if_pos (decide_eq_true hmore), min_eq_right (le_of_lt hmore)]
    · rw [if_neg (by rw [decide_eq_true_iff]; exact hmore), min_eq_left (not_lt.mp hmore)]
  obtain ⟨c, hc, htarget, hround⟩ := isTarget_of_getCompact
    (hmin.symm ▸ lt_min hpos hlimit) (hmin.symm ▸ min_le_right a.toNat params.powLimit.toNat)
  rw [hmin] at hround
  exact ⟨c, hc, ⟨htarget, by rw [hround, roundCompact_roundCompact]⟩, hround⟩

/-! ## The rules -/

theorem toNat_target {bits : UInt32} :
    (ArithUint256.setCompact bits).1.toNat = (setCompact bits).1 := (setCompact_toNat bits).1

/-- The time between two retargets, between a fourth and four times of what it should be. -/
def retargetTimespan (params : Params) (nActualTimespan : ℤ) : ℤ :=
  min (max nActualTimespan (params.nPowTargetTimespan / 4)) (params.nPowTargetTimespan * 4)

theorem toNat_ofInt_32 {t : ℤ} (hlow : 0 ≤ t) (hhigh : t < 2 ^ 32) :
    ((UInt32.ofInt t).toNat : ℤ) = t := by
  have hmod : (UInt32.ofInt t).toNat = (t % 2 ^ 32).toNat := by
    show (UInt32.ofNat (t % 2 ^ 32).toNat).toNat = _
    exact UInt32.toNat_ofNat_of_lt' (by show _ < 2 ^ 32; omega)
  rw [hmod]
  omega

/-- The product of a target and a time does not wrap. -/
theorem toNat_mul_timespan {bits : UInt32} (hlimit : params.powLimit.toNat < 2 ^ 224)
    (h : IsTarget params bits) {t : ℤ} (hlow : 0 ≤ t) (hhigh : t < 2 ^ 32) :
    (((ArithUint256.setCompact bits).1.mul (UInt32.ofInt t)).toNat : ℤ) = (setCompact bits).1 * t := by
  obtain ⟨-, -, hle⟩ := h
  have ht := toNat_ofInt_32 hlow hhigh
  have hfit : (setCompact bits).1 * (UInt32.ofInt t).toNat < 2 ^ 256 := by
    calc (setCompact bits).1 * (UInt32.ofInt t).toNat < 2 ^ 224 * 2 ^ 32 :=
          Nat.mul_lt_mul'' (by omega) (by omega)
      _ = 2 ^ 256 := rfl
  rw [ArithUint256.toNat_mul (by rw [toNat_target]; exact hfit), toNat_target]
  push_cast
  rw [ht]

/-- **A retarget.** -/
theorem calculateNextWorkRequired_spec {p : ι} (hlimit : params.powLimit.toNat < 2 ^ 224)
    (h : IsWritten params (nBits p)) (hlarge : 2 ^ 24 ≤ (setCompact (nBits p)).1)
    (nFirstBlockTime : ℤ) :
    ∃ c, calculateNextWorkRequired nTime nBits params p nFirstBlockTime = some c ∧
      IsWritten params c ∧ WithinFour (nBits p) c := by
  by_cases hno : params.fPowNoRetargeting
  · exact ⟨nBits p, if_pos hno, h, h.within_self⟩
  · set target := (setCompact (nBits p)).1 with htarget
    obtain ⟨t, ht⟩ : ∃ t : ℕ, (t : ℤ) = retargetTimespan params (getBlockTime nTime p - nFirstBlockTime) :=
      ⟨_, Int.toNat_of_nonneg (by unfold retargetTimespan Params.nPowTargetTimespan; omega)⟩
    have hrange : 302400 ≤ t ∧ t ≤ 4838400 := by
      unfold retargetTimespan Params.nPowTargetTimespan at ht
      omega
    have hmul := toNat_mul_timespan hlimit h.1 (t := t) (by omega) (by omega)
    have hmulNat : ((ArithUint256.setCompact (nBits p)).1.mul (UInt32.ofInt t)).toNat = target * t := by
      exact_mod_cast hmul
    have hdivisor : (ArithUint256.ofUInt64 (UInt64.ofInt params.nPowTargetTimespan)).toNat = 1209600 := by
      rw [ArithUint256.toNat_ofUInt64]
      rfl
    obtain ⟨bnNew, hdiv, hvalue⟩ := ArithUint256.div_eq
      (a := (ArithUint256.setCompact (nBits p)).1.mul (UInt32.ofInt t))
      (b := ArithUint256.ofUInt64 (UInt64.ofInt params.nPowTargetTimespan)) (by rw [hdivisor]; omega)
    rw [hmulNat, hdivisor] at hvalue
    have hlow : target / 4 ≤ bnNew.toNat := by
      have hquarter : target * 302400 / 1209600 = target / 4 :=
        Nat.mul_div_mul_right target 4 (by decide : 0 < 302400)
      rw [hvalue, ← hquarter]
      exact Nat.div_le_div_right (Nat.mul_le_mul_left _ hrange.1)
    have hhigh : bnNew.toNat ≤ 4 * target := by
      rw [hvalue]
      apply Nat.div_le_of_le_mul
      have := Nat.mul_le_mul_left target hrange.2
      omega
    obtain ⟨-, hpos, hle⟩ := h.1
    obtain ⟨c, hc, hwritten, hround⟩ := written_of_limit params bnNew (by omega) (by omega)
    refine ⟨c, ?_, hwritten, min bnNew.toNat params.powLimit.toNat, ?_, ?_, hround⟩
    · rw [calculateNextWorkRequired, if_neg hno]
      have hclamp : (let s := if getBlockTime nTime p - nFirstBlockTime <
            params.nPowTargetTimespan / 4 then params.nPowTargetTimespan / 4
          else getBlockTime nTime p - nFirstBlockTime
          if s > params.nPowTargetTimespan * 4 then params.nPowTargetTimespan * 4 else s) = (t : ℤ) := by
        rw [ht, retargetTimespan, Params.nPowTargetTimespan]
        dsimp only
        split_ifs <;> omega
      simp only [Option.bind_eq_bind]
      dsimp only at hclamp
      rw [hclamp, hdiv, Option.bind_some, hc]
    · omega
    · omega

/-- A target and its quarter do not wrap. -/
theorem toNat_add_quarter {bits : UInt32} (hlimit : params.powLimit.toNat < 2 ^ 224)
    (h : IsTarget params bits) :
    ((ArithUint256.setCompact bits).1.add ((ArithUint256.setCompact bits).1.shiftRight 2)).toNat =
      (setCompact bits).1 + (setCompact bits).1 / 4 := by
  obtain ⟨-, -, hle⟩ := h
  have hshift : ((ArithUint256.setCompact bits).1.shiftRight 2).toNat = (setCompact bits).1 / 4 := by
    rw [ArithUint256.toNat_shiftRight, toNat_target]
    rfl
  rw [ArithUint256.toNat_add (by rw [hshift, toNat_target]; omega), hshift, toNat_target]

/-- **The emergency rule.** -/
theorem easeTarget_spec {bits : UInt32} (hlimit : params.powLimit.toNat < 2 ^ 224)
    (h : IsWritten params bits) :
    ∃ c, easeTarget params bits = some c ∧ IsWritten params c ∧ WithinFour bits c := by
  obtain ⟨-, hpos, hle⟩ := h.1
  have hsum := toNat_add_quarter hlimit h.1
  obtain ⟨c, hc, hwritten, hround⟩ := written_of_limit params
    ((ArithUint256.setCompact bits).1.add ((ArithUint256.setCompact bits).1.shiftRight 2))
    (by omega) (by omega)
  refine ⟨c, hc, hwritten, _, ?_, ?_, hround⟩
  · omega
  · omega

/-- The loop over blocks of least difficulty stays on the chain. -/
theorem lastRegularBlock_le (nProofOfWorkLimit : UInt32) (fuel : ℕ) (pindex : ι) :
    T.forest.Le (lastRegularBlock T nBits params nProofOfWorkLimit fuel pindex) pindex := by
  induction fuel generalizing pindex with
  | zero => exact Forest.Le.refl pindex
  | succ fuel ih =>
    unfold lastRegularBlock
    cases hp : T.pprev pindex with
    | none => exact Forest.Le.refl pindex
    | some p =>
      dsimp only
      split_ifs
      · exact (ih p).trans (Forest.Le.of_parent hp)
      · exact Forest.Le.refl pindex

/-! ## A chain of older rules -/

/-- The older rules give the target of a block on `p`. -/
def IsPreDaa (T : BlockIndex ι) (nTime : ι → UInt32) (params : Params) (state : UAHFState) (p : ι) :
    Prop :=
  ¬ (state = .active ∧ getMedianTimePast T nTime p ≥ params.daa3ActivationTime)

/-- The headers up to `tip`, each with the target that the older rules give on its parent. -/
structure PreDaaChain (T : BlockIndex ι) (nTime nBits : ι → UInt32) (params : Params)
    (state : ι → UAHFState) (tip : ι) : Prop where
  genesis : ∀ b, T.forest.Le b tip → T.pprev b = none → params.powLimit.getCompact = some (nBits b)
  isPreDaa : ∀ b p, T.forest.Le b tip → T.pprev b = some p → IsPreDaa T nTime params (state b) p
  next : ∀ b p, T.forest.Le b tip → T.pprev b = some p →
    getNextWorkRequired T nTime nBits params (state b) (some p) (getBlockTime nTime b) =
      some (nBits b)
  large : ∀ b, T.forest.Le b tip → 2 ^ 24 ≤ (setCompact (nBits b)).1

variable {state : ι → UAHFState} {tip p : ι}

theorem getNextWorkRequired_pre {s : UAHFState} {blockTime : ℤ} (hpre : IsPreDaa T nTime params s p) :
    getNextWorkRequired T nTime nBits params s (some p) blockTime =
      if params.fPowNoRetargeting then some (nBits p)
      else getNextEDAWorkRequired T nTime nBits params s p blockTime := by
  unfold getNextWorkRequired
  by_cases hno : params.fPowNoRetargeting
  · simp only [hno, if_true]
  · dsimp only
    rw [if_neg hno, if_neg hno, if_neg hpre]

/-- Between two retargets the limit is kept. -/
theorem getNextWorkRequired_limit {s : UAHFState} (blockTime : ℤ)
    (hpre : IsPreDaa T nTime params s p) (hoff : params.fPowAllowMinDifficultyBlocks = false)
    (hheight : T.nHeight p + 1 < 2016) (hbits : params.powLimit.getCompact = some (nBits p)) :
    getNextWorkRequired T nTime nBits params s (some p) blockTime = some (nBits p) := by
  have hbetween : ¬ ((T.nHeight p : ℤ) + 1) % params.difficultyAdjustmentInterval = 0 := by
    show ¬ ((T.nHeight p : ℤ) + 1) % 2016 = 0
    omega
  rw [getNextWorkRequired_pre hpre]
  split_ifs
  · rfl
  · unfold getNextEDAWorkRequired
    dsimp only
    rw [if_neg hbetween, hbits, Option.bind_eq_bind, Option.bind_some, hoff, if_neg Bool.false_ne_true,
      if_pos rfl]
    rfl

/-- **Up to the first retarget the targets are the limit**, when no block may have the least
difficulty for being late. -/
theorem PreDaaChain.nBits_eq_limit (hchain : PreDaaChain T nTime nBits params state tip)
    (hoff : params.fPowAllowMinDifficultyBlocks = false) {n : ℕ} (hn : n < 2016) {b : ι}
    (hle : T.forest.Le b tip) (hheight : T.nHeight b = n) :
    params.powLimit.getCompact = some (nBits b) := by
  -- by induction on the height
  induction n generalizing b with
  | zero =>
    apply hchain.genesis b hle
    cases hp : T.pprev b with
    | none => rfl
    | some p =>
      have := T.height_child b p hp
      omega
  | succ n ih =>
    cases hp : T.pprev b with
    | none => exact hchain.genesis b hle hp
    | some p =>
      have hh := T.height_child b p hp
      have hparent := ih (by omega) ((Forest.Le.of_parent hp).trans hle) (by omega)
      have hkept := getNextWorkRequired_limit (getBlockTime nTime b) (hchain.isPreDaa b p hle hp) hoff
        (by omega) hparent
      rw [hchain.next b p hle hp] at hkept
      rw [hparent, hkept]

/-- **One block.**  On a chain of written targets there is a next one. -/
theorem exists_next {s : UAHFState} (blockTime : ℤ) (hpre : IsPreDaa T nTime params s p)
    (hlimit : params.powLimit.toNat < 2 ^ 224)
    (hwritten : ∀ a, T.forest.Le a p → IsWritten params (nBits a))
    (hlarge : 2 ^ 24 ≤ (setCompact (nBits p)).1)
    (hfirst : params.fPowAllowMinDifficultyBlocks = false → T.nHeight p < 2016 →
      params.powLimit.getCompact = some (nBits p)) :
    ∃ c, getNextWorkRequired T nTime nBits params s (some p) blockTime = some c ∧
      IsWritten params c ∧
      (params.fPowAllowMinDifficultyBlocks = false → WithinFour (nBits p) c) := by
  have hself : IsWritten params (nBits p) := hwritten p (Forest.Le.refl p)
  have hpos : 0 < params.powLimit.toNat := by
    obtain ⟨-, h0, hle⟩ := hself.1
    omega
  obtain ⟨limit, hlimitBits, hlimitTarget, hlimitRound⟩ :=
    isTarget_of_getCompact hpos (le_refl params.powLimit.toNat)
  have hlimitWritten : IsWritten params limit :=
    ⟨hlimitTarget, by rw [hlimitRound, roundCompact_roundCompact]⟩
  rw [getNextWorkRequired_pre hpre]
  by_cases hno : params.fPowNoRetargeting
  · exact ⟨nBits p, if_pos hno, hself, fun _ => hself.within_self⟩
  · rw [if_neg hno]
    unfold getNextEDAWorkRequired
    dsimp only
    by_cases hretarget : ((T.nHeight p : ℤ) + 1) % params.difficultyAdjustmentInterval = 0
    · -- a retarget, from the block that is an interval back
      have hinterval : params.difficultyAdjustmentInterval = 2016 := rfl
      rw [hinterval] at hretarget
      obtain ⟨first, hfirstBlock⟩ := T.forest.ancestor?_isSome
        (b := p) (k := T.nHeight p + 1 - 2016) (by show _ ≤ T.nHeight p; omega)
      have hancestor : T.getAncestorAt p ((T.nHeight p : ℤ) + 1 - params.difficultyAdjustmentInterval) =
          some first := by
        rw [hinterval, T.getAncestorAt_eq, if_pos (by omega),
          show ((T.nHeight p : ℤ) + 1 - 2016).toNat = T.nHeight p + 1 - 2016 from by omega]
        exact hfirstBlock
      obtain ⟨c, hc, hcWritten, hcWithin⟩ :=
        calculateNextWorkRequired_spec hlimit hself hlarge (getBlockTime nTime first)
      refine ⟨c, ?_, hcWritten, fun _ => hcWithin⟩
      rw [if_pos (by rw [hinterval]; exact hretarget), if_neg (by omega), Option.bind_eq_bind,
        hancestor, Option.bind_some, hc]
    · rw [if_neg hretarget, hlimitBits, Option.bind_eq_bind, Option.bind_some]
      by_cases hallow : params.fPowAllowMinDifficultyBlocks
      · -- the special rule for testnet
        rw [if_pos hallow]
        split_ifs
        · exact ⟨limit, rfl, hlimitWritten, fun hoff => absurd hallow (Bool.eq_false_iff.mp hoff)⟩
        · exact ⟨_, rfl, hwritten _ (lastRegularBlock_le ..),
            fun hoff => absurd hallow (Bool.eq_false_iff.mp hoff)⟩
      · rw [if_neg hallow]
        have hoff : params.fPowAllowMinDifficultyBlocks = false := Bool.eq_false_iff.mpr hallow
        by_cases hmin : nBits p = limit
        · rw [if_pos hmin]
          exact ⟨limit, rfl, hlimitWritten, fun _ => hmin ▸ hself.within_self⟩
        · rw [if_neg hmin]
          split_ifs
          · exact ⟨nBits p, rfl, hself, fun _ => hself.within_self⟩
          · -- the target has left the limit, so that there are six blocks to go back
            have hheight : 2016 ≤ T.nHeight p := by
              by_contra hlow
              have := hfirst hoff (by omega)
              rw [hlimitBits] at this
              exact hmin (Option.some.inj this).symm
            obtain ⟨pindex6, hsix⟩ := T.forest.ancestor?_isSome
              (b := p) (k := T.nHeight p - 6) (Nat.sub_le _ _)
            have hancestor : T.getAncestorAt p ((T.nHeight p : ℤ) + 1 - 7) = some pindex6 := by
              rw [T.getAncestorAt_eq, if_pos (by omega),
                show ((T.nHeight p : ℤ) + 1 - 7).toNat = T.nHeight p - 6 from by omega]
              exact hsix
            rw [Option.bind_eq_bind, hancestor, Option.bind_some]
            split_ifs
            · exact ⟨nBits p, rfl, hself, fun _ => hself.within_self⟩
            · obtain ⟨c, hc, hcWritten, hcWithin⟩ := easeTarget_spec hlimit hself
              exact ⟨c, hc, hcWritten, fun _ => hcWithin⟩

/-- Every target of the chain is written. -/
theorem PreDaaChain.written (hchain : PreDaaChain T nTime nBits params state tip)
    (hlimit : params.powLimit.toNat < 2 ^ 224) (n : ℕ) :
    ∀ b, T.forest.Le b tip → T.nHeight b = n → IsWritten params (nBits b) := by
  -- by strong induction on the height: the rule of a block looks at all blocks below it
  induction n using Nat.strong_induction_on with
  | _ n ih =>
    intro b hle hheight
    have hlarge := hchain.large b hle
    cases hp : T.pprev b with
    | none =>
      have hgenesis := hchain.genesis b hle hp
      obtain ⟨c, hc, hread⟩ := getCompact_spec params.powLimit
      have hsame : nBits b = c := by
        rw [hgenesis] at hc
        exact Option.some.inj hc
      have hpos : 0 < params.powLimit.toNat := by
        have hround := roundCompact_le params.powLimit.toNat
        rw [hsame, hread] at hlarge
        dsimp only at hlarge
        omega
      obtain ⟨c', hc', htarget, hround⟩ :=
        isTarget_of_getCompact hpos (le_refl params.powLimit.toNat)
      rw [hgenesis] at hc'
      obtain rfl := Option.some.inj hc'
      exact ⟨htarget, by rw [hround, roundCompact_roundCompact]⟩
    | some p =>
      have hh := T.height_child b p hp
      have hpLe : T.forest.Le p tip := (Forest.Le.of_parent hp).trans hle
      obtain ⟨c, hc, hcWritten, -⟩ := exists_next (getBlockTime nTime b)
        (hchain.isPreDaa b p hle hp) hlimit
        (fun a ha => by
          have hheightA : T.nHeight a ≤ T.nHeight p := ha.height_le
          exact ih (T.nHeight a) (by omega) a (ha.trans hpLe) rfl)
        (hchain.large p hpLe) (fun hoff hlow => hchain.nBits_eq_limit hoff hlow hpLe rfl)
      rw [hchain.next b p hle hp] at hc
      rw [Option.some.inj hc]
      exact hcWritten

/-- **The older rules stay in range.**  On a chain that they have made there is a next target: no
assertion fails, no number wraps on the way to it, and without the rule for late blocks it is
within four times of the one before. -/
theorem PreDaaChain.exists_next_inRange (hlimit : params.powLimit.toNat < 2 ^ 224)
    (hchain : PreDaaChain T nTime nBits params state tip) (s : UAHFState) (blockTime : ℤ)
    (hpre : IsPreDaa T nTime params s tip) :
    ∃ c, getNextWorkRequired T nTime nBits params s (some tip) blockTime = some c ∧
      IsTarget params c ∧
      (params.fPowAllowMinDifficultyBlocks = false → WithinFour (nBits tip) c) ∧
      (∀ t : ℤ, params.nPowTargetTimespan / 4 ≤ t → t ≤ params.nPowTargetTimespan * 4 →
        (((ArithUint256.setCompact (nBits tip)).1.mul (UInt32.ofInt t)).toNat : ℤ) =
          (setCompact (nBits tip)).1 * t) ∧
      ((ArithUint256.setCompact (nBits tip)).1.add
        ((ArithUint256.setCompact (nBits tip)).1.shiftRight 2)).toNat =
          (setCompact (nBits tip)).1 + (setCompact (nBits tip)).1 / 4 := by
  have hself : T.forest.Le tip tip := Forest.Le.refl tip
  have hwritten : ∀ a, T.forest.Le a tip → IsWritten params (nBits a) :=
    fun a ha => hchain.written hlimit _ a ha rfl
  obtain ⟨c, hc, hcWritten, hcWithin⟩ := exists_next blockTime hpre hlimit hwritten
    (hchain.large tip hself) (fun hoff hlow => hchain.nBits_eq_limit hoff hlow hself rfl)
  refine ⟨c, hc, hcWritten.1, hcWithin, ?_, ?_⟩
  · intro t hlow hhigh
    have hspan : params.nPowTargetTimespan = 1209600 := rfl
    exact toNat_mul_timespan hlimit (hwritten tip hself).1 (by omega) (by omega)
  · exact toNat_add_quarter hlimit (hwritten tip hself).1

end

theorem getCompact_mainLimit : mainParams.powLimit.getCompact = some 0x1d00ffff := by
  decide +kernel

/-- The steady chain up to the first retarget. -/
theorem preDaaChain_steady : PreDaaChain steadyChain (fun n => UInt32.ofNat (600 * n))
    (fun _ => 0x1d00ffff) mainParams (fun _ => .waiting) 2015 where
  genesis _ _ _ := getCompact_mainLimit
  isPreDaa _ _ _ _ h := nomatch h.1
  next b p hle hp := by
    have hheight : steadyChain.nHeight b ≤ 2015 := hle.height_le
    have hh := steadyChain.height_child b p hp
    exact getNextWorkRequired_limit _ (fun h => nomatch h.1) rfl (by omega) getCompact_mainLimit
  large _ _ := by decide

/-- The first retarget of the steady chain. -/
theorem exists_next_inRange_steady :
    ∃ c, getNextWorkRequired steadyChain (fun n => UInt32.ofNat (600 * n)) (fun _ => 0x1d00ffff)
      mainParams .rulesActive (some 2015) 1209600 = some c ∧ IsTarget mainParams c ∧
      WithinFour 0x1d00ffff c := by
  obtain ⟨c, hc, htarget, hwithin, -, -⟩ :=
    PreDaaChain.exists_next_inRange (by rw [toNat_mainLimit]; decide) preDaaChain_steady .rulesActive
      1209600 (fun h => nomatch h.1)
  exact ⟨c, hc, htarget, hwithin rfl⟩

end Pow
