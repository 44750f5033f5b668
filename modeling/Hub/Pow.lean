/-
# The next target

`GetNextWorkRequired` and the two rules that it chooses from (`libs/server/pow.cpp`), over the tree
of all headers.  Nothing is returned when an assertion fails, a null pointer is read, or a number
is divided by zero.

* `calculateNextCashWorkRequired` : the work of a day, and the time that it took;
* `getNextEDAWorkRequired` : once in two weeks, with an emergency rule in between.

The newer rule gives the compact form of what the work and the time come to
(`calculateNextCashWorkRequired_exact`).
-/
import Hub.ArithUint256
import Hub.LockTime

open LockTime

namespace Pow

/-! ## The model -/

/-- The members of `Consensus::Params` for the proof of work. -/
structure Params where
  powLimit : ArithUint256
  fPowAllowMinDifficultyBlocks : Bool
  fPowNoRetargeting : Bool
  daa3ActivationTime : ℤ

namespace Params

/-- `nPowTargetSpacing`, the same for all networks of `chainparams.cpp`. -/
def nPowTargetSpacing (_ : Params) : ℤ := 10 * 60

/-- `nPowTargetTimespan`, the same for all networks. -/
def nPowTargetTimespan (_ : Params) : ℤ := 14 * 24 * 60 * 60

/-- `DifficultyAdjustmentInterval`. -/
def difficultyAdjustmentInterval (p : Params) : ℤ := p.nPowTargetTimespan / p.nPowTargetSpacing

end Params

/-- `Application::UAHFState`. -/
inductive UAHFState
  | disabled
  | waiting
  | rulesActive
  | active
  deriving DecidableEq

/-- The middle one of three blocks, by a sorting network. -/
def sortBlocks {ι : Type} (nTime : ι → UInt32) (b₀ b₁ b₂ : ι) : ι :=
  let s₁ := if nTime b₀ > nTime b₂ then (b₂, b₀) else (b₀, b₂)
  let s₂ := if nTime s₁.1 > nTime b₁ then (b₁, s₁.1) else (s₁.1, b₁)
  let s₃ := if nTime s₂.2 > nTime s₁.2 then (s₁.2, s₂.2) else (s₂.2, s₁.2)
  s₃.1

section

variable {ι : Type} (T : BlockIndex ι) (nTime nBits : ι → UInt32)

/-- `GetBlockTime`. -/
def getBlockTime (b : ι) : ℤ := (nTime b).toNat

/-- `GetSuitableBlock`. -/
def getSuitableBlock (pindex : ι) : Option ι :=
  if T.nHeight pindex < 3 then none
  else do
    let b₁ ← T.pprev pindex
    let b₀ ← T.pprev b₁
    pure (sortBlocks nTime b₀ b₁ pindex)

/-- The time between two blocks, between 72 and 288 spacings. -/
def clampTimespan (params : Params) (nActualTimespan : ℤ) : ℤ :=
  if nActualTimespan > 288 * params.nPowTargetSpacing then 288 * params.nPowTargetSpacing
  else if nActualTimespan < 72 * params.nPowTargetSpacing then 72 * params.nPowTargetSpacing
  else nActualTimespan

/-- `ComputeTarget`. -/
def computeTarget (params : Params) (pindexFirst pindexLast : ι) : Option ArithUint256 :=
  if ¬ T.nHeight pindexLast > T.nHeight pindexFirst then none
  else do
    let work := (ArithUint256.ofNat (T.nChainWork pindexLast)).sub
      (ArithUint256.ofNat (T.nChainWork pindexFirst))
    let work := work.mul (UInt32.ofInt params.nPowTargetSpacing)
    let nActualTimespan := clampTimespan params
      (getBlockTime nTime pindexLast - getBlockTime nTime pindexFirst)
    let work ← work.div (ArithUint256.ofUInt64 (UInt64.ofInt nActualTimespan))
    work.neg.div work

/-- `CalculateNextCashWorkRequired`, for a block with the time `blockTime`. -/
def calculateNextCashWorkRequired (params : Params) (pindexPrev : ι) (blockTime : ℤ) :
    Option UInt32 :=
  if params.fPowAllowMinDifficultyBlocks ∧
      blockTime > getBlockTime nTime pindexPrev + 2 * params.nPowTargetSpacing then
    params.powLimit.getCompact
  else
    let nHeight : ℤ := T.nHeight pindexPrev
    if ¬ nHeight ≥ params.difficultyAdjustmentInterval then none
    else do
      let pindexLast ← getSuitableBlock T nTime pindexPrev
      let pindexFirst ← getSuitableBlock T nTime (← T.getAncestorAt pindexPrev (nHeight - 144))
      let nextTarget ← computeTarget T nTime params pindexFirst pindexLast
      if nextTarget.gt params.powLimit then params.powLimit.getCompact else nextTarget.getCompact

/-- `CalculateNextWorkRequired`. -/
def calculateNextWorkRequired (params : Params) (pindexPrev : ι) (nFirstBlockTime : ℤ) :
    Option UInt32 :=
  if params.fPowNoRetargeting then some (nBits pindexPrev)
  else do
    let nActualTimespan := getBlockTime nTime pindexPrev - nFirstBlockTime
    let nActualTimespan :=
      if nActualTimespan < params.nPowTargetTimespan / 4 then params.nPowTargetTimespan / 4
      else nActualTimespan
    let nActualTimespan :=
      if nActualTimespan > params.nPowTargetTimespan * 4 then params.nPowTargetTimespan * 4
      else nActualTimespan
    let bnNew := (ArithUint256.setCompact (nBits pindexPrev)).1
    let bnNew := bnNew.mul (UInt32.ofInt nActualTimespan)
    let bnNew ← bnNew.div (ArithUint256.ofUInt64 (UInt64.ofInt params.nPowTargetTimespan))
    let bnNew := if bnNew.gt params.powLimit then params.powLimit else bnNew
    bnNew.getCompact

/-- The loop that looks for the last block that was not mined with the least difficulty; the first
argument bounds the rounds. -/
def lastRegularBlock (params : Params) (nProofOfWorkLimit : UInt32) : ℕ → ι → ι
  | 0, pindex => pindex
  | fuel + 1, pindex =>
    match T.pprev pindex with
    | none => pindex
    | some p =>
      if (T.nHeight pindex : ℤ) % params.difficultyAdjustmentInterval ≠ 0 ∧
          nBits pindex = nProofOfWorkLimit then
        lastRegularBlock params nProofOfWorkLimit fuel p
      else pindex

/-- The emergency rule: a quarter is added to the target. -/
def easeTarget (params : Params) (nBits : UInt32) : Option UInt32 :=
  let nPow := (ArithUint256.setCompact nBits).1
  let nPow := nPow.add (nPow.shiftRight 2)
  let nPow := if nPow.gt params.powLimit then params.powLimit else nPow
  nPow.getCompact

/-- `GetNextEDAWorkRequired`.  The height six blocks back is an unsigned difference that is
made an `int` again. -/
def getNextEDAWorkRequired (params : Params) (state : UAHFState) (pindexPrev : ι)
    (blockTime : ℤ) : Option UInt32 :=
  let nHeight : ℤ := T.nHeight pindexPrev + 1
  if nHeight % params.difficultyAdjustmentInterval = 0 then
    if ¬ nHeight ≥ params.difficultyAdjustmentInterval then none
    else do
      let pindexFirst ← T.getAncestorAt pindexPrev (nHeight - params.difficultyAdjustmentInterval)
      calculateNextWorkRequired nTime nBits params pindexPrev (getBlockTime nTime pindexFirst)
  else do
    let nProofOfWorkLimit ← params.powLimit.getCompact
    if params.fPowAllowMinDifficultyBlocks then
      if blockTime > getBlockTime nTime pindexPrev + 2 * params.nPowTargetSpacing then
        pure nProofOfWorkLimit
      else
        pure (nBits
          (lastRegularBlock T nBits params nProofOfWorkLimit (T.nHeight pindexPrev) pindexPrev))
    else if nBits pindexPrev = nProofOfWorkLimit then pure nProofOfWorkLimit
    else if state = .disabled then pure (nBits pindexPrev)
    else
      let pindex6 ← T.getAncestorAt pindexPrev (nHeight - 7)
      let mtp6blocks := getMedianTimePast T nTime pindexPrev - getMedianTimePast T nTime pindex6
      if mtp6blocks < 12 * 3600 then pure (nBits pindexPrev)
      else easeTarget params (nBits pindexPrev)

/-- `GetNextWorkRequired`, of a block with the time `blockTime` on `pindexPrev`. -/
def getNextWorkRequired (params : Params) (state : UAHFState) (pindexPrev : Option ι)
    (blockTime : ℤ) : Option UInt32 :=
  match pindexPrev with
  | none => params.powLimit.getCompact
  | some pindexPrev =>
    if params.fPowNoRetargeting then some (nBits pindexPrev)
    else if state = .active ∧ getMedianTimePast T nTime pindexPrev ≥ params.daa3ActivationTime then
      calculateNextCashWorkRequired T nTime params pindexPrev blockTime
    else getNextEDAWorkRequired T nTime nBits params state pindexPrev blockTime

end

/-! ## Suitable blocks -/

/-- `m` is one of three blocks, and two of them are not later, and two not earlier. -/
structure IsMedian {ι : Type} (nTime : ι → UInt32) (b₀ b₁ b₂ m : ι) : Prop where
  mem : m = b₀ ∨ m = b₁ ∨ m = b₂
  le : 2 ≤ [b₀, b₁, b₂].countP fun b => decide ((nTime b).toNat ≤ (nTime m).toNat)
  ge : 2 ≤ [b₀, b₁, b₂].countP fun b => decide ((nTime m).toNat ≤ (nTime b).toNat)

/-- The counts of a median, told by comparisons with the other two. -/
theorem two_le_countP_iff {ι : Type} (P : ι → Bool) (b₀ b₁ b₂ : ι) :
    2 ≤ [b₀, b₁, b₂].countP P ↔
      (P b₀ = true ∧ P b₁ = true) ∨ (P b₀ = true ∧ P b₂ = true) ∨ (P b₁ = true ∧ P b₂ = true) := by
  cases h₀ : P b₀ <;> cases h₁ : P b₁ <;> cases h₂ : P b₂ <;> simp [h₀, h₁, h₂]

/-- **The sorting network** finds a median, also when times are equal. -/
theorem sortBlocks_isMedian {ι : Type} (nTime : ι → UInt32) (b₀ b₁ b₂ : ι) :
    IsMedian nTime b₀ b₁ b₂ (sortBlocks nTime b₀ b₁ b₂) := by
  unfold sortBlocks
  simp only [gt_iff_lt, UInt32.lt_iff_toNat_lt]
  constructor
  · split_ifs <;> simp
  · rw [two_le_countP_iff]
    simp only [decide_eq_true_eq]
    split_ifs at * <;> dsimp only at * <;> omega
  · rw [two_le_countP_iff]
    simp only [decide_eq_true_eq]
    split_ifs at * <;> dsimp only at * <;> omega

section

variable {ι : Type} {T : BlockIndex ι} {nTime nBits : ι → UInt32} {params : Params}

/-- A median of a block and the two before it. -/
def IsSuitable (T : BlockIndex ι) (nTime : ι → UInt32) (pindex m : ι) : Prop :=
  ∃ b₁ b₀, T.pprev pindex = some b₁ ∧ T.pprev b₁ = some b₀ ∧ IsMedian nTime b₀ b₁ pindex m

theorem getSuitableBlock_spec {pindex : ι} (h : 3 ≤ T.nHeight pindex) :
    ∃ m, getSuitableBlock T nTime pindex = some m ∧ IsSuitable T nTime pindex m := by
  obtain ⟨b₁, hb₁⟩ : ∃ b₁, T.pprev pindex = some b₁ := by
    cases hp : T.pprev pindex with
    | none =>
      have := T.height_root pindex hp
      omega
    | some b₁ => exact ⟨b₁, rfl⟩
  have hh := T.height_child pindex b₁ hb₁
  obtain ⟨b₀, hb₀⟩ : ∃ b₀, T.pprev b₁ = some b₀ := by
    cases hp : T.pprev b₁ with
    | none =>
      have := T.height_root b₁ hp
      omega
    | some b₀ => exact ⟨b₀, rfl⟩
  refine ⟨sortBlocks nTime b₀ b₁ pindex, ?_, b₁, b₀, hb₁, hb₀, sortBlocks_isMedian ..⟩
  rw [getSuitableBlock, if_neg (by omega), hb₁]
  simp only [Option.bind_eq_bind, Option.bind_some, hb₀]
  rfl

/-- A suitable block is at most two blocks back. -/
theorem IsSuitable.le {pindex m : ι} (h : IsSuitable T nTime pindex m) :
    T.forest.Le m pindex ∧ T.nHeight pindex ≤ T.nHeight m + 2 := by
  obtain ⟨b₁, b₀, hb₁, hb₀, hm⟩ := h
  have h₁ := T.height_child pindex b₁ hb₁
  have h₀ := T.height_child b₁ b₀ hb₀
  have hle₁ : T.forest.Le b₁ pindex := Forest.Le.of_parent hb₁
  have hle₀ : T.forest.Le b₀ b₁ := Forest.Le.of_parent hb₀
  rcases hm.mem with rfl | rfl | rfl
  · exact ⟨hle₀.trans hle₁, by omega⟩
  · exact ⟨hle₁, by omega⟩
  · exact ⟨Forest.Le.refl _, by omega⟩

/-! ## The work of a chain -/

/-- The compact form is that of a target within the limit. -/
def IsTarget (params : Params) (nBits : UInt32) : Prop :=
  (setCompact nBits).2 = (false, false) ∧ 0 < (setCompact nBits).1 ∧
    (setCompact nBits).1 ≤ params.powLimit.toNat

/-- A target below `2 ^ 224` takes `2 ^ 32` hashes. -/
theorem two_pow_32_le_getBlockProof {bits : UInt32} (hlimit : params.powLimit.toNat < 2 ^ 224)
    (h : IsTarget params bits) : 2 ^ 32 ≤ getBlockProof bits := by
  obtain ⟨hflags, hpos, hle⟩ := h
  have hneg : (setCompact bits).2.1 = false := congrArg Prod.fst hflags
  have hover : (setCompact bits).2.2 = false := congrArg Prod.snd hflags
  have hne : ((setCompact bits).1 == 0) = false := beq_eq_false_iff_ne.mpr (by omega)
  unfold getBlockProof
  simp only [hneg, hover, hne, Bool.or_self, Bool.false_eq_true, if_false]
  have hlow : 2 ^ 32 - 1 ≤ (2 ^ 256 - 1 - (setCompact bits).1) / ((setCompact bits).1 + 1) := by
    rw [Nat.le_div_iff_mul_le (by omega)]
    omega
  have hhigh : (2 ^ 256 - 1 - (setCompact bits).1) / ((setCompact bits).1 + 1) ≤
      2 ^ 256 - 1 - (setCompact bits).1 := Nat.div_le_self _ _
  rw [Nat.mod_eq_of_lt (by omega : (setCompact bits).1 + 1 < 2 ^ 256), Nat.mod_eq_of_lt (by omega)]
  omega

/-- Work adds up from block to block. -/
theorem work_of_le {tip a b : ι} (hlimit : params.powLimit.toNat < 2 ^ 224)
    (htargets : ∀ b, T.forest.Le b tip → IsTarget params (nBits b))
    (hwork : ∀ b p, T.forest.Le b tip → T.pprev b = some p →
      T.nChainWork b = T.nChainWork p + getBlockProof (nBits b))
    (hb : T.forest.Le b tip) (hab : T.forest.Le a b) :
    T.nChainWork a + 2 ^ 32 * (T.nHeight b - T.nHeight a) ≤ T.nChainWork b := by
  have hall : T.forest.Le a tip ∧ T.nHeight a ≤ T.nHeight b ∧
      T.nChainWork a + 2 ^ 32 * (T.nHeight b - T.nHeight a) ≤ T.nChainWork b := by
    refine hab.induction (P := fun x => T.forest.Le x tip ∧ T.nHeight x ≤ T.nHeight b ∧
      T.nChainWork x + 2 ^ 32 * (T.nHeight b - T.nHeight x) ≤ T.nChainWork b) ?_ ?_
    · rintro x p hp ⟨hx, hle, hsum⟩
      have hh := T.height_child x p hp
      have hproof := two_pow_32_le_getBlockProof hlimit (htargets x hx)
      have hnext := hwork x p hx hp
      exact ⟨(Forest.Le.of_parent hp).trans hx, by omega, by omega⟩
    · exact ⟨hb, le_rfl, by omega⟩
  exact hall.2.2

/-! ## The newer rule -/

theorem clampTimespan_eq (params : Params) (t : ℤ) : clampTimespan params t =
    max (72 * params.nPowTargetSpacing) (min (288 * params.nPowTargetSpacing) t) := by
  unfold clampTimespan Params.nPowTargetSpacing
  split_ifs <;> omega

theorem toNat_ofInt {t : ℤ} (hlow : 0 ≤ t) (hhigh : t < 2 ^ 64) :
    ((UInt64.ofInt t).toNat : ℤ) = t := by
  have hmod : (UInt64.ofInt t).toNat = (t % 2 ^ 64).toNat := by
    show (UInt64.ofNat (t % 2 ^ 64).toNat).toNat = _
    exact UInt64.toNat_ofNat_of_lt' (by show _ < 2 ^ 64; omega)
  rw [hmod]
  omega

/-- `2 ^ 256 / W - 1` in 256 bits. -/
theorem neg_div_self {work : ArithUint256} (h : 0 < work.toNat) :
    ∃ t, work.neg.div work = some t ∧ t.toNat = 2 ^ 256 / work.toNat - 1 := by
  obtain ⟨t, ht, hvalue⟩ := ArithUint256.div_eq (a := work.neg) (b := work) (by omega)
  refine ⟨t, ht, ?_⟩
  have hsub := Nat.sub_mul_div (2 ^ 256) work.toNat 1
  rw [Nat.mul_one] at hsub
  rw [hvalue, ArithUint256.toNat_neg h, hsub]

/-- The work of a spacing, between two blocks. -/
def workPerSpacing (T : BlockIndex ι) (nTime : ι → UInt32) (params : Params)
    (pindexFirst pindexLast : ι) : ℤ :=
  ((T.nChainWork pindexLast : ℤ) - T.nChainWork pindexFirst) * params.nPowTargetSpacing /
    max (72 * params.nPowTargetSpacing) (min (288 * params.nPowTargetSpacing)
      (getBlockTime nTime pindexLast - getBlockTime nTime pindexFirst))

/-- **`ComputeTarget`** divides `2 ^ 256` by the work of a spacing. -/
theorem computeTarget_spec (nTime : ι → UInt32) (params : Params) {pindexFirst pindexLast : ι}
    (hheight : T.nHeight pindexFirst < T.nHeight pindexLast)
    (hbound : T.nChainWork pindexLast < 2 ^ 246)
    (hwork : T.nChainWork pindexFirst + 2 ^ 32 ≤ T.nChainWork pindexLast) :
    ∃ (W : ℕ) (target : ArithUint256), (W : ℤ) = workPerSpacing T nTime params pindexFirst pindexLast ∧
      0 < W ∧ W < 2 ^ 246 ∧ computeTarget T nTime params pindexFirst pindexLast = some target ∧
      target.toNat = 2 ^ 256 / W - 1 := by
  set timespan := clampTimespan params
    (getBlockTime nTime pindexLast - getBlockTime nTime pindexFirst) with htimespan
  have hrange : 43200 ≤ timespan ∧ timespan ≤ 172800 := by
    rw [htimespan, clampTimespan_eq, Params.nPowTargetSpacing]
    omega
  have hdivisor : ((ArithUint256.ofUInt64 (UInt64.ofInt timespan)).toNat : ℤ) = timespan := by
    rw [ArithUint256.toNat_ofUInt64, toNat_ofInt (by omega) (by omega)]
  have hlast := ArithUint256.toNat_ofNat (n := T.nChainWork pindexLast) (by omega)
  have hfirst := ArithUint256.toNat_ofNat (n := T.nChainWork pindexFirst) (by omega)
  set diff := (ArithUint256.ofNat (T.nChainWork pindexLast)).sub
    (ArithUint256.ofNat (T.nChainWork pindexFirst)) with hdiff
  have hdiffNat : diff.toNat = T.nChainWork pindexLast - T.nChainWork pindexFirst := by
    rw [hdiff, ArithUint256.toNat_sub (by rw [hlast, hfirst]; omega), hlast, hfirst]
  have hspacing : (UInt32.ofInt params.nPowTargetSpacing).toNat = 600 := rfl
  have hprod : (diff.mul (UInt32.ofInt params.nPowTargetSpacing)).toNat = diff.toNat * 600 := by
    rw [ArithUint256.toNat_mul (by rw [hspacing]; omega), hspacing]
  obtain ⟨work, hdiv, hvalue⟩ := ArithUint256.div_eq
    (a := diff.mul (UInt32.ofInt params.nPowTargetSpacing))
    (b := ArithUint256.ofUInt64 (UInt64.ofInt timespan)) (by omega)
  rw [hprod] at hvalue
  have hpos : 0 < work.toNat := by
    rw [hvalue]
    exact Nat.div_pos (by omega) (by omega)
  have hsmall : work.toNat < 2 ^ 246 := by
    rw [hvalue, Nat.div_lt_iff_lt_mul (by omega)]
    have hmul : 2 ^ 246 * 600 ≤ 2 ^ 246 * (ArithUint256.ofUInt64 (UInt64.ofInt timespan)).toNat :=
      Nat.mul_le_mul_left _ (by omega)
    omega
  obtain ⟨target, htarget, htargetNat⟩ := neg_div_self hpos
  refine ⟨work.toNat, target, ?_, hpos, hsmall, ?_, htargetNat⟩
  · have hnum : (((T.nChainWork pindexLast - T.nChainWork pindexFirst) * 600 : ℕ) : ℤ) =
        ((T.nChainWork pindexLast : ℤ) - T.nChainWork pindexFirst) * params.nPowTargetSpacing := by
      rw [Params.nPowTargetSpacing]
      omega
    rw [hvalue, workPerSpacing, ← clampTimespan_eq, ← htimespan, Int.natCast_div, hdivisor, hdiffNat,
      hnum]
  · rw [computeTarget, if_neg (not_not.mpr hheight)]
    simp only [Option.bind_eq_bind]
    rw [← hdiff, ← htimespan, hdiv]
    exact htarget

/-- The compact form of a target within the limit. -/
theorem isTarget_of_getCompact {a : ArithUint256} (hpos : 0 < a.toNat)
    (hle : a.toNat ≤ params.powLimit.toNat) :
    ∃ c, a.getCompact = some c ∧ IsTarget params c ∧
      (setCompact c).1 = Compact.roundCompact a.toNat := by
  obtain ⟨c, hc, hread⟩ := Compact.getCompact_spec a
  refine ⟨c, hc, ⟨by rw [hread], ?_, ?_⟩, by rw [hread]⟩
  · rw [hread]
    exact Compact.roundCompact_pos hpos
  · rw [hread]
    exact le_trans (Compact.roundCompact_le _) hle

/-- **The newer rule is exact.**  The next target is the compact form of the smaller one of the
limit and `2 ^ 256 / W - 1`, where `W` is the work of a spacing between two suitable blocks. -/
theorem calculateNextCashWorkRequired_exact {tip : ι} {blockTime : ℤ}
    (hlimit : params.powLimit.toNat < 2 ^ 224)
    (htargets : ∀ b, T.forest.Le b tip → IsTarget params (nBits b))
    (hwork : ∀ b p, T.forest.Le b tip → T.pprev b = some p →
      T.nChainWork b = T.nChainWork p + getBlockProof (nBits b))
    (hbound : T.nChainWork tip < 2 ^ 246)
    (hheight : params.difficultyAdjustmentInterval ≤ T.nHeight tip)
    (hrule : ¬ (params.fPowAllowMinDifficultyBlocks ∧
      blockTime > getBlockTime nTime tip + 2 * params.nPowTargetSpacing)) :
    ∃ (back first last : ι) (W : ℕ) (target : ArithUint256) (c : UInt32),
      T.getAncestorAt tip (T.nHeight tip - 144) = some back ∧
      IsSuitable T nTime back first ∧ IsSuitable T nTime tip last ∧
      (W : ℤ) = workPerSpacing T nTime params first last ∧ 0 < W ∧
      target.toNat = min params.powLimit.toNat (2 ^ 256 / W - 1) ∧
      calculateNextCashWorkRequired T nTime params tip blockTime = some c ∧
      target.getCompact = some c ∧ IsTarget params c := by
  have hinterval : params.difficultyAdjustmentInterval = 2016 := rfl
  have hself : T.forest.Le tip tip := Forest.Le.refl tip
  -- the two blocks
  obtain ⟨back, hback⟩ := T.forest.ancestor?_isSome (k := T.nHeight tip - 144) (Nat.sub_le _ _)
  obtain ⟨hbackLe, hbackHeight⟩ := Forest.ancestor?_eq_some_iff.mp hback
  have hbackHeight' : T.nHeight back = T.nHeight tip - 144 := hbackHeight
  have hancestor : T.getAncestorAt tip (T.nHeight tip - 144) = some back := by
    rw [T.getAncestorAt_eq, if_pos (by omega),
      show ((T.nHeight tip : ℤ) - 144).toNat = T.nHeight tip - 144 from by omega]
    exact hback
  obtain ⟨last, hlast, hlastSuitable⟩ : ∃ m, getSuitableBlock T nTime tip = some m ∧
    IsSuitable T nTime tip m := getSuitableBlock_spec (by omega)
  obtain ⟨first, hfirst, hfirstSuitable⟩ : ∃ m, getSuitableBlock T nTime back = some m ∧
    IsSuitable T nTime back m := getSuitableBlock_spec (by omega)
  obtain ⟨hlastLe, hlastHeight⟩ := hlastSuitable.le
  obtain ⟨hfirstLe, hfirstHeight⟩ := hfirstSuitable.le
  have hfirstBack := hfirstLe.height_le
  have hheights : T.nHeight first ≤ T.nHeight back := hfirstBack
  have horder : T.forest.Le first last :=
    (hfirstLe.trans hbackLe).total hlastLe (by show T.nHeight first ≤ T.nHeight last; omega)
  have hless : T.nHeight first < T.nHeight last := by omega
  -- the work between them
  have hdiff := work_of_le hlimit htargets hwork hlastLe horder
  have htotal := work_of_le hlimit htargets hwork hself hlastLe
  obtain ⟨W, target, hW, hpos, hsmall, hcompute, htarget⟩ :=
    computeTarget_spec nTime params hless (by omega) (by omega)
  have hrange : 1 ≤ 2 ^ 256 / W - 1 := by
    have hquot : 2 ≤ 2 ^ 256 / W := by
      rw [Nat.le_div_iff_mul_le hpos]
      omega
    omega
  have hlimitPos : 0 < params.powLimit.toNat := by
    obtain ⟨-, h0, hle⟩ := htargets tip hself
    omega
  have hresult : calculateNextCashWorkRequired T nTime params tip blockTime =
      if target.gt params.powLimit then params.powLimit.getCompact else target.getCompact := by
    rw [calculateNextCashWorkRequired, if_neg hrule]
    simp only [Option.bind_eq_bind]
    rw [if_neg (by omega), hlast, Option.bind_some, hancestor, Option.bind_some, hfirst,
      Option.bind_some, hcompute, Option.bind_some]
  rw [ArithUint256.gt_eq] at hresult
  by_cases hmore : params.powLimit.toNat < target.toNat
  · obtain ⟨c, hc, hcTarget, -⟩ := isTarget_of_getCompact hlimitPos (le_refl params.powLimit.toNat)
    refine ⟨back, first, last, W, params.powLimit, c, hancestor, hfirstSuitable, hlastSuitable, hW,
      hpos, by omega, ?_, hc, hcTarget⟩
    rw [hresult, if_pos (decide_eq_true hmore), hc]
  · have hle : target.toNat ≤ params.powLimit.toNat := not_lt.mp hmore
    obtain ⟨c, hc, hcTarget, -⟩ := isTarget_of_getCompact (by omega) hle
    refine ⟨back, first, last, W, target, c, hancestor, hfirstSuitable, hlastSuitable, hW, hpos,
      by omega, ?_, hc, hcTarget⟩
    rw [hresult, if_neg (by rw [decide_eq_true_iff]; exact hmore), hc]

end

/-! ### A steady chain -/

/-- The parameters of the main network. -/
def mainParams : Params where
  powLimit := ArithUint256.ofNat (2 ^ 224 - 1)
  fPowAllowMinDifficultyBlocks := false
  fPowNoRetargeting := false
  daa3ActivationTime := 1510600000

/-- The predecessor on a single chain. -/
def below (n : ℕ) : Option ℕ := if n = 0 then none else some (n - 1)

theorem eq_zero_of_below {n : ℕ} (h : below n = none) : n = 0 := by
  unfold below at h
  split_ifs at h with hn
  exact hn

theorem eq_succ_of_below {n m : ℕ} (h : below n = some m) : n = m + 1 := by
  unfold below at h
  split_ifs at h with hn
  have := Option.some.inj h
  omega

/-- A chain of blocks that all have the least difficulty. -/
def steadyChain : BlockIndex ℕ where
  pprev := below
  nHeight n := n
  nChainWork n := n * getBlockProof 0x1d00ffff
  pskip _ := none
  height_root _ h := eq_zero_of_below h
  height_child _ _ h := eq_succ_of_below h
  skip _ _ h := nomatch h

theorem toNat_mainLimit : mainParams.powLimit.toNat = 2 ^ 224 - 1 :=
  ArithUint256.toNat_ofNat (by decide)

theorem isTarget_main : IsTarget mainParams 0x1d00ffff := by
  refine ⟨rfl, by decide, ?_⟩
  rw [toNat_mainLimit]
  decide

/-- The next target of the steady chain, at the height at which the newer rule can begin. -/
theorem calculateNextCashWorkRequired_exact_steady :
    ∃ c, calculateNextCashWorkRequired steadyChain (fun n => UInt32.ofNat (600 * n)) mainParams 2016
      1209600 = some c ∧ IsTarget mainParams c := by
  obtain ⟨-, -, -, -, -, c, -, -, -, -, -, -, hc, -, htarget⟩ :=
    @calculateNextCashWorkRequired_exact ℕ steadyChain (fun n => UInt32.ofNat (600 * n))
    (fun _ => 0x1d00ffff) mainParams 2016 1209600 (by rw [toNat_mainLimit]; decide)
    (fun _ _ => isTarget_main)
    (fun b p _ hp => by
      obtain rfl := eq_succ_of_below hp
      exact Nat.succ_mul p _)
    (by decide) (by decide) (fun h => Bool.false_ne_true h.1)
  exact ⟨c, hc, htarget⟩

end Pow
