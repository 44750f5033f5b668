/-
# Cached lock points

The pool remembers with a transaction what `CheckSequenceLocks` (`libs/server/main.cpp`) has found
out about its relative lock times: a height, a time, and the highest block that has a coin of it.
As long as the active chain has that block, the transaction is tested against the two numbers only.

What the numbers allow is allowed by the inputs as well, also when some of them have been mined
since (`checkSequenceLocks_of_cached`).
-/
import Mathlib
import Hub.LockTime
import Hub.TxValidation

variable {ι : Type}

namespace BlockIndex

/-- The `pprev` of a tree with one more block on `tip`. -/
def parentOnTop (T : BlockIndex ι) (tip : ι) : Option ι → Option (Option ι)
  | none => some (some tip)
  | some b => (T.pprev b).map some

theorem up_parentOnTop (T : BlockIndex ι) (tip : ι) (n : ℕ) (b : ι) :
    Forest.up (T.parentOnTop tip) n (some b) = (Forest.up T.pprev n b).map some := by
  induction n generalizing b with
  | zero => rfl
  | succ n ih =>
    rw [Forest.up, Forest.up, parentOnTop]
    cases T.pprev b with
    | none => rfl
    | some p => exact ih p

/-- The entries together with one that is not in the index: its `pprev` is `tip`, its height is one
more, and all else is as the constructor of `CBlockIndex` leaves it. -/
def onTop (T : BlockIndex ι) (tip : ι) : BlockIndex (Option ι) where
  pprev := T.parentOnTop tip
  nHeight b := b.elim (T.nHeight tip + 1) T.nHeight
  nChainWork b := b.elim 0 T.nChainWork
  pskip b := b.bind fun b => (T.pskip b).map some
  height_root b h := by
    cases b with
    | none => cases h
    | some b => exact T.height_root b (Option.map_eq_none_iff.mp h)
  height_child b p h := by
    cases b with
    | none =>
      obtain rfl := Option.some.inj h
      rfl
    | some b =>
      obtain ⟨q, hq, rfl⟩ := Option.map_eq_some_iff.mp h
      exact T.height_child b q hq
  skip b s h := by
    cases b with
    | none => cases h
    | some b =>
      obtain ⟨q, hq, rfl⟩ := Option.map_eq_some_iff.mp h
      show Forest.up (T.parentOnTop tip) (T.nHeight b - getSkipHeight (T.nHeight b)) (some b) = _
      rw [up_parentOnTop, T.skip b q hq]
      rfl

variable {T : BlockIndex ι} {tip : ι}

/-- Below the new block there are the ancestors of `tip`. -/
theorem getAncestorAt_onTop {height : ℤ} (hle : height ≤ T.nHeight tip) :
    (T.onTop tip).getAncestorAt none height = (T.getAncestorAt tip height).map some := by
  rw [getAncestorAt_eq, getAncestorAt_eq]
  by_cases hpos : 0 ≤ height
  · have hnew : height.toNat ≤ (T.onTop tip).forest.height none := by
      show height.toNat ≤ T.nHeight tip + 1
      omega
    have hold : height.toNat ≤ T.forest.height tip := by
      show height.toNat ≤ T.nHeight tip
      omega
    rw [if_pos hpos, if_pos hpos, Forest.ancestor?, Forest.ancestor?, if_pos hnew, if_pos hold]
    show Forest.up (T.parentOnTop tip) (T.nHeight tip + 1 - height.toNat) none =
      (Forest.up T.pprev (T.nHeight tip - height.toNat) tip).map some
    rw [← up_parentOnTop T tip,
      show T.nHeight tip + 1 - height.toNat = (T.nHeight tip - height.toNat) + 1 from by omega]
    rfl
  · rw [if_neg hpos, if_neg hpos]
    rfl

end BlockIndex

namespace LockTime

/-! ## The model -/

/-- `LockPoints`. -/
structure LockPoints (ι : Type) where
  height : ℤ
  time : ℤ
  maxInputBlock : Option ι
  deriving DecidableEq

/-- The height that `CheckSequenceLocks` takes for an input: a transaction of the pool is thought
to be in the next block. -/
def prevHeight (s : CTxMemPool) (nHeight : ℤ) (txin : CTxIn) : Option ℤ :=
  (CCoinsViewMemPool.getCoins s txin.prevout.hash).map fun coins =>
    if coins.nHeight = mempoolHeight then nHeight else coins.nHeight.toInt

/-- The loop of `CheckSequenceLocks` that fills `prevheights`. -/
def prevHeights (s : CTxMemPool) (nHeight : ℤ) : List CTxIn → Option (List ℤ)
  | [] => some []
  | txin :: rest => do
    let height ← prevHeight s nHeight txin
    let heights ← prevHeights s nHeight rest
    pure (height :: heights)

/-- The loop for `maxInputHeight`. -/
def maxInputHeight (nHeight : ℤ) (heights : List ℤ) : ℤ :=
  heights.foldl (fun maxInputHeight height =>
    if height ≠ nHeight then max maxInputHeight height else maxInputHeight) 0

section

variable (T : BlockIndex ι) (nTime : ι → UInt32)

/-- `TestLockPointValidity`. -/
def testLockPointValidity [DecidableEq ι] (chainActive : CChain ι) (lp : LockPoints ι) : Bool :=
  match lp.maxInputBlock with
  | some maxInputBlock => chainActive.contains T maxInputBlock
  | none => true

/-- The times of the entries, with the one that is not in the index. -/
def nTimeOnTop (b : Option ι) : UInt32 := b.elim 0 nTime

/-- `CheckSequenceLocks` on `tip`: what it returns, and what it leaves in `lp`. -/
def checkSequenceLocks (s : CTxMemPool) (tx : CTransaction) (flags : Int32)
    (lp : Option (LockPoints ι)) (useExistingLockPoints : Bool) (tip : ι) :
    Option (Bool × Option (LockPoints ι)) :=
  let index : Option ι := none
  if useExistingLockPoints then do
    let points ← lp
    let ok ← evaluateSequenceLocks (T.onTop tip) (nTimeOnTop nTime) index (points.height, points.time)
    pure (ok, lp)
  else
    match prevHeights s (T.nHeight tip + 1) tx.vin with
    | none => some (false, lp)
    | some heights => do
      let (lockPair, heights) ←
        calculateSequenceLocks (T.onTop tip) (nTimeOnTop nTime) tx flags heights index
      let lp := lp.map fun _ => LockPoints.mk lockPair.1 lockPair.2
        (T.getAncestorAt tip (maxInputHeight (T.nHeight tip + 1) heights))
      let ok ← evaluateSequenceLocks (T.onTop tip) (nTimeOnTop nTime) index lockPair
      pure (ok, lp)

/-- `LOCKTIME_MEDIAN_TIME_PAST`. -/
def locktimeMedianTimePast : Int32 := 2

/-- `STANDARD_LOCKTIME_VERIFY_FLAGS`. -/
def standardLocktimeVerifyFlags : Int32 := locktimeVerifySequence ||| locktimeMedianTimePast

/-- `CheckFinalTx` on `tip`, for flags that are not negative. -/
def checkFinalTx (adjustedTime : ℤ) (tx : CTransaction) (flags : Int32) (tip : ι) : Bool :=
  isFinalTx tx (T.nHeight tip + 1)
    (if flags &&& locktimeMedianTimePast ≠ 0 then getMedianTimePast T nTime tip else adjustedTime)

/-- The test of `removeForReorg` for a transaction with which the pool remembers `lp`. -/
def isFinalForReorg [DecidableEq ι] (adjustedTime : ℤ) (chainActive : CChain ι) (s : CTxMemPool)
    (flags : Int32) (tip : ι) (lp : LockPoints ι) (tx : CTransaction) : Option Bool :=
  let validLP := testLockPointValidity T chainActive lp
  if checkFinalTx T nTime adjustedTime tx flags tip then do
    let (ok, _) ← checkSequenceLocks T nTime s tx flags (some lp) validLP tip
    pure ok
  else some false

end

/-! ## The entry on top -/

section

variable {T : BlockIndex ι} {nTime : ι → UInt32} {tip : ι}

theorem pastTimes_onTop (k : ℕ) (b : Option ι) :
    pastTimes (T.onTop tip) (nTimeOnTop nTime) k (b.map some) = pastTimes T nTime k b := by
  induction k generalizing b with
  | zero => rfl
  | succ k ih =>
    cases b with
    | none => rfl
    | some b => exact congrArg (· ++ [((nTime b).toNat : ℤ)]) (ih (T.pprev b))

@[simp] theorem getMedianTimePast_onTop (b : ι) :
    getMedianTimePast (T.onTop tip) (nTimeOnTop nTime) (some b) = getMedianTimePast T nTime b := by
  unfold getMedianTimePast
  rw [show some (some b) = (some b : Option ι).map some from rfl, pastTimes_onTop]

/-- What the next block is asked for. -/
theorem evaluateSequenceLocks_onTop (lockPair : ℤ × ℤ) :
    evaluateSequenceLocks (T.onTop tip) (nTimeOnTop nTime) none lockPair =
      some (decide (lockPair.1 < T.nHeight tip + 1 ∧ lockPair.2 < getMedianTimePast T nTime tip)) := by
  show (if lockPair.1 ≥ ((T.nHeight tip + 1 : ℕ) : ℤ) ∨
    lockPair.2 ≥ getMedianTimePast (T.onTop tip) (nTimeOnTop nTime) (some tip) then some false
    else some true) = _
  rw [getMedianTimePast_onTop]
  split_ifs with h
  · rw [decide_eq_false (by push_cast at h; omega)]
  · rw [decide_eq_true (by push_cast at h; omega)]

/-! ## The heights of the inputs -/

/-- A transaction of the pool. -/
def InPool (s : CTxMemPool) (hash : Uint256) : Prop := ∃ tx, s.txAt hash = some tx

/-- A transaction that is in the chain up to `tip`, at height `h`. -/
def ConfirmedAt (T : BlockIndex ι) (s : CTxMemPool) (tip : ι) (hash : Uint256) (h : ℕ) : Prop :=
  s.txAt hash = none ∧ h ≤ T.nHeight tip ∧
    ∃ coins, s.coins.value hash = some coins ∧ coins.nHeight.toInt = h

variable {s : CTxMemPool} {txin : CTxIn}

theorem prevHeight_of_inPool (nHeight : ℤ) (h : InPool s txin.prevout.hash) :
    prevHeight s nHeight txin = some nHeight := by
  obtain ⟨tx, htx⟩ := h
  unfold prevHeight CCoinsViewMemPool.getCoins
  rw [htx]
  exact congrArg some (if_pos rfl)

theorem prevHeight_of_confirmedAt {h : ℕ} (nHeight : ℤ) (hint : T.nHeight tip + 1 < 2 ^ 31)
    (hc : ConfirmedAt T s tip txin.prevout.hash h) : prevHeight s nHeight txin = some (h : ℤ) := by
  obtain ⟨hout, hle, coins, hcoins, hheight⟩ := hc
  have hne : ¬ coins.nHeight = mempoolHeight := by
    intro heq
    have hmax : mempoolHeight.toInt = 2147483647 := by decide
    rw [heq, hmax] at hheight
    omega
  unfold prevHeight CCoinsViewMemPool.getCoins
  rw [hout]
  dsimp only
  rw [hcoins]
  exact congrArg some ((if_neg hne).trans hheight)

/-- Every input has the height that belongs to it. -/
theorem prevHeight_of_mem_zip {nHeight : ℤ} {inputs : List CTxIn} {heights : List ℤ}
    (h : prevHeights s nHeight inputs = some heights) :
    heights.length = inputs.length ∧
      (∀ i ∈ inputs.zip heights, prevHeight s nHeight i.1 = some i.2) ∧
      ∀ txin ∈ inputs, ∃ height, (txin, height) ∈ inputs.zip heights := by
  induction inputs generalizing heights with
  | nil =>
    obtain rfl := Option.some.inj h
    exact ⟨rfl, fun i hi => absurd hi List.not_mem_nil, fun i hi => absurd hi List.not_mem_nil⟩
  | cons txin rest ih =>
    obtain ⟨height, hheight, h⟩ := Option.bind_eq_some_iff.mp h
    obtain ⟨heights', hrest, h⟩ := Option.bind_eq_some_iff.mp h
    obtain rfl := Option.some.inj h
    obtain ⟨hlen, hzip, hmem⟩ := ih hrest
    refine ⟨congrArg Nat.succ hlen, fun i hi => ?_, fun i hi => ?_⟩
    · rcases List.mem_cons.mp hi with rfl | hi
      · exact hheight
      · exact hzip i hi
    · rcases List.mem_cons.mp hi with rfl | hi
      · exact ⟨height, List.mem_cons_self⟩
      · obtain ⟨height', hheight'⟩ := hmem i hi
        exact ⟨height', List.mem_cons_of_mem _ hheight'⟩

theorem exists_prevHeights {nHeight : ℤ} {inputs : List CTxIn}
    (h : ∀ txin ∈ inputs, ∃ height, prevHeight s nHeight txin = some height) :
    ∃ heights, prevHeights s nHeight inputs = some heights := by
  induction inputs with
  | nil => exact ⟨[], rfl⟩
  | cons txin rest ih =>
    obtain ⟨height, hheight⟩ := h txin List.mem_cons_self
    obtain ⟨heights, hheights⟩ := ih fun i hi => h i (List.mem_cons_of_mem _ hi)
    refine ⟨height :: heights, ?_⟩
    rw [prevHeights, hheight, hheights]
    rfl

theorem le_maxInputHeight {nHeight height : ℤ} {heights : List ℤ} (hmem : height ∈ heights)
    (hne : height ≠ nHeight) : height ≤ maxInputHeight nHeight heights := by
  have hfold : ∀ (l : List ℤ) (m : ℤ),
      m ≤ l.foldl (fun m height => if height ≠ nHeight then max m height else m) m ∧
        (height ∈ l →
          height ≤ l.foldl (fun m height => if height ≠ nHeight then max m height else m) m) := by
    intro l
    induction l with
    | nil => exact fun m => ⟨le_rfl, fun hm => absurd hm List.not_mem_nil⟩
    | cons x rest ih =>
      intro m
      obtain ⟨hle, hrest⟩ := ih (if x ≠ nHeight then max m x else m)
      have hgrow : m ≤ if x ≠ nHeight then max m x else m := by
        split_ifs
        · exact le_max_left m x
        · exact le_rfl
      refine ⟨le_trans hgrow hle, fun hm => ?_⟩
      rcases List.mem_cons.mp hm with rfl | hm
      · rw [if_pos hne] at hle
        exact le_trans (le_max_right m height) (by rw [List.foldl_cons, if_pos hne]; exact hle)
      · exact hrest hm
  exact (hfold heights 0).2 hmem

theorem maxInputHeight_le {nHeight bound : ℤ} {heights : List ℤ} (hpos : 0 ≤ bound)
    (h : ∀ height ∈ heights, height ≠ nHeight → height ≤ bound) :
    0 ≤ maxInputHeight nHeight heights ∧ maxInputHeight nHeight heights ≤ bound := by
  have hfold : ∀ (l : List ℤ) (m : ℤ), 0 ≤ m ∧ m ≤ bound →
      (∀ height ∈ l, height ≠ nHeight → height ≤ bound) →
      0 ≤ l.foldl (fun m height => if height ≠ nHeight then max m height else m) m ∧
        l.foldl (fun m height => if height ≠ nHeight then max m height else m) m ≤ bound := by
    intro l
    induction l with
    | nil => exact fun m hm _ => hm
    | cons x rest ih =>
      intro m hm hall
      apply ih
      · dsimp only
        split_ifs with hx
        · exact ⟨le_trans hm.1 (le_max_left m x), max_le hm.2 (hall x List.mem_cons_self hx)⟩
        · exact hm
      · exact fun height hheight => hall height (List.mem_cons_of_mem _ hheight)
  exact hfold heights 0 ⟨le_rfl, hpos⟩ h

/-! ## The locks -/

/-- The lock of an input on a coin of height `nCoinHeight` is below both bounds. -/
structure Unlocked (T : BlockIndex ι) (nTime : ι → UInt32) (block : ι) (txin : CTxIn)
    (nCoinHeight nHeight nBlockTime : ℤ) : Prop where
  coin : 0 ≤ nCoinHeight ∧ nCoinHeight < 2 ^ 31
  height : txin.nSequence &&& sequenceLocktimeTypeFlag = 0 →
    nCoinHeight + (txin.nSequence &&& sequenceLocktimeMask).toNat < 2 ^ 31 ∧
      nCoinHeight + (txin.nSequence &&& sequenceLocktimeMask).toNat - 1 < nHeight
  time : txin.nSequence &&& sequenceLocktimeTypeFlag ≠ 0 →
    ∃ index, T.getAncestorAt block (max (nCoinHeight - 1) 0) = some index ∧
      getMedianTimePast T nTime index
        + ((txin.nSequence &&& sequenceLocktimeMask) <<< sequenceLocktimeGranularity).toNat - 1
          < nBlockTime

theorem int?_of_mem {x : ℤ} (hlow : -2 ^ 31 ≤ x) (hhigh : x < 2 ^ 31) : int? x = some x :=
  if_pos ⟨hlow, hhigh⟩

/-- **The loop of a transaction whose inputs are not locked.** -/
theorem sequenceLockLoop_of_unlocked (block : ι) {nHeight nBlockTime : ℤ}
    (inputs : List (CTxIn × ℤ)) {h t : ℤ} (hh : h < nHeight) (ht : t < nBlockTime)
    (hall : ∀ i ∈ inputs, i.1.nSequence &&& sequenceLocktimeDisableFlag = 0 →
      Unlocked T nTime block i.1 i.2 nHeight nBlockTime) :
    ∃ lockPair heights, sequenceLockLoop T nTime block inputs h t = some (lockPair, heights) ∧
      lockPair.1 < nHeight ∧ lockPair.2 < nBlockTime := by
  induction inputs generalizing h t with
  | nil => exact ⟨(h, t), [], rfl, hh, ht⟩
  | cons input rest ih =>
    obtain ⟨txin, nCoinHeight⟩ := input
    have hrest := fun i hi => hall i (List.mem_cons_of_mem _ hi)
    rw [sequenceLockLoop]
    split_ifs with hdisable htype
    · obtain ⟨pair, heights, hloop, hlow⟩ := ih hh ht hrest
      exact ⟨pair, 0 :: heights, by rw [hloop]; rfl, hlow⟩
    · obtain ⟨hcoin, -, htime⟩ := hall _ List.mem_cons_self (not_not.mp hdisable)
      obtain ⟨index, hindex, hlock⟩ := htime htype
      obtain ⟨pair, heights, hloop, hlow⟩ := ih hh (max_lt ht hlock) hrest
      refine ⟨pair, nCoinHeight :: heights, ?_, hlow⟩
      rw [int?_of_mem (by omega) (by omega)]
      simp only [Option.bind_eq_bind, Option.bind_some]
      rw [hindex]
      simp only [Option.bind_some]
      rw [hloop]
      rfl
    · obtain ⟨hcoin, hheight, -⟩ := hall _ List.mem_cons_self (not_not.mp hdisable)
      obtain ⟨hint, hlock⟩ := hheight (not_not.mp htype)
      dsimp only at hcoin hint hlock
      obtain ⟨pair, heights, hloop, hlow⟩ := ih (max_lt hh hlock) ht hrest
      refine ⟨pair, nCoinHeight :: heights, ?_, hlow⟩
      rw [int?_of_mem (by omega) hint]
      simp only [Option.bind_eq_bind, Option.bind_some]
      rw [int?_of_mem (by omega) (by omega)]
      simp only [Option.bind_some]
      rw [hloop]
      rfl

/-- The heights that the loop leaves. -/
theorem sequenceLockLoop_heights (block : ι) (inputs : List (CTxIn × ℤ)) {h t : ℤ}
    {lockPair : ℤ × ℤ} {heights : List ℤ}
    (hloop : sequenceLockLoop T nTime block inputs h t = some (lockPair, heights)) :
    heights = inputs.map fun i =>
      if i.1.nSequence &&& sequenceLocktimeDisableFlag ≠ 0 then 0 else i.2 := by
  induction inputs generalizing h t heights with
  | nil =>
    obtain ⟨-, rfl⟩ := Prod.mk.inj (Option.some.inj hloop)
    rfl
  | cons input rest ih =>
    obtain ⟨txin, nCoinHeight⟩ := input
    rw [sequenceLockLoop] at hloop
    rw [List.map_cons]
    split_ifs at hloop ⊢ with hdisable htype
    · obtain ⟨⟨pair, _⟩, hrest, hpure⟩ := Option.bind_eq_some_iff.mp hloop
      obtain ⟨rfl, rfl⟩ := Prod.mk.inj (Option.some.inj hpure)
      exact congrArg (List.cons _) (ih hrest)
    all_goals
      obtain ⟨_, -, hloop⟩ := Option.bind_eq_some_iff.mp hloop
      obtain ⟨_, -, hloop⟩ := Option.bind_eq_some_iff.mp hloop
      obtain ⟨⟨pair, _⟩, hrest, hpure⟩ := Option.bind_eq_some_iff.mp hloop
      obtain ⟨rfl, rfl⟩ := Prod.mk.inj (Option.some.inj hpure)
      exact congrArg (List.cons _) (ih hrest)

/-! ## Later tips -/

/-- An input at a later tip: it is still in the pool, it has been mined, or it is where it was. -/
inductive InputKept (T : BlockIndex ι) (s₀ : CTxMemPool) (tip₀ : ι) (s : CTxMemPool) (tip : ι)
    (txin : CTxIn) : Prop
  | inPool (before : InPool s₀ txin.prevout.hash) (now : InPool s txin.prevout.hash)
  | mined (h : ℕ) (before : InPool s₀ txin.prevout.hash)
      (now : ConfirmedAt T s tip txin.prevout.hash h)
  | confirmed (h : ℕ) (before : ConfirmedAt T s₀ tip₀ txin.prevout.hash h)
      (now : ConfirmedAt T s tip txin.prevout.hash h)

variable {s₀ : CTxMemPool} {tip₀ : ι} {tx : CTransaction} {flags : Int32} {lp : LockPoints ι}

theorem InputKept.exists_prevHeight (h : InputKept T s₀ tip₀ s tip txin)
    (hint : T.nHeight tip + 1 < 2 ^ 31) :
    ∃ height, prevHeight s (T.nHeight tip + 1) txin = some height := by
  cases h with
  | inPool _ now => exact ⟨_, prevHeight_of_inPool _ now⟩
  | mined h _ now => exact ⟨_, prevHeight_of_confirmedAt _ hint now⟩
  | confirmed h _ now => exact ⟨_, prevHeight_of_confirmedAt _ hint now⟩

/-- What the cached numbers say. -/
theorem checkSequenceLocks_cached {ok : Bool} {left : Option (LockPoints ι)} :
    checkSequenceLocks T nTime s tx flags (some lp) true tip = some (ok, left) ↔
      left = some lp ∧ ok = decide (lp.height < T.nHeight tip + 1 ∧
        lp.time < getMedianTimePast T nTime tip) := by
  unfold checkSequenceLocks
  dsimp only
  rw [if_pos rfl, Option.bind_eq_bind, Option.bind_some, evaluateSequenceLocks_onTop,
    Option.bind_eq_bind, Option.bind_some]
  constructor
  · intro h
    obtain ⟨hok, hleft⟩ := Prod.mk.inj (Option.some.inj h)
    exact ⟨hleft.symm, hok.symm⟩
  · rintro ⟨rfl, rfl⟩
    rfl

/-- As long as the lock points are valid, `removeForReorg` does not look at the inputs. -/
theorem isFinalForReorg_of_valid [DecidableEq ι] {adjustedTime : ℤ} {chainActive : CChain ι}
    (hvalid : testLockPointValidity T chainActive lp = true) :
    isFinalForReorg T nTime adjustedTime chainActive s flags tip lp tx =
      some (checkFinalTx T nTime adjustedTime tx flags tip &&
        decide (lp.height < T.nHeight tip + 1 ∧ lp.time < getMedianTimePast T nTime tip)) := by
  unfold isFinalForReorg
  dsimp only
  cases checkFinalTx T nTime adjustedTime tx flags tip with
  | false => rfl
  | true =>
    rw [if_pos rfl, hvalid, checkSequenceLocks_cached.mpr ⟨rfl, rfl⟩]
    rfl

/-- What has been remembered when the transaction was accepted. -/
theorem checkSequenceLocks_fresh {lp' : Option (LockPoints ι)}
    (h : checkSequenceLocks T nTime s tx flags lp' false tip = some (true, some lp)) :
    ∃ heights left, prevHeights s (T.nHeight tip + 1) tx.vin = some heights ∧
      calculateSequenceLocks (T.onTop tip) (nTimeOnTop nTime) tx flags heights none =
        some ((lp.height, lp.time), left) ∧
      lp.maxInputBlock = T.getAncestorAt tip (maxInputHeight (T.nHeight tip + 1) left) ∧
      lp.height < T.nHeight tip + 1 ∧ lp.time < getMedianTimePast T nTime tip := by
  unfold checkSequenceLocks at h
  dsimp only at h
  rw [if_neg Bool.false_ne_true] at h
  cases hheights : prevHeights s (T.nHeight tip + 1) tx.vin with
  | none =>
    rw [hheights] at h
    cases h
  | some heights =>
    rw [hheights] at h
    obtain ⟨⟨lockPair, left⟩, hlocks, h⟩ := Option.bind_eq_some_iff.mp h
    obtain ⟨ok, hok, h⟩ := Option.bind_eq_some_iff.mp h
    obtain ⟨rfl, hlp⟩ := Prod.mk.inj (Option.some.inj h)
    obtain ⟨_, -, rfl⟩ := Option.map_eq_some_iff.mp hlp
    rw [evaluateSequenceLocks_onTop] at hok
    obtain ⟨hheight, htime⟩ := of_decide_eq_true (Option.some.inj hok)
    exact ⟨heights, left, rfl, hlocks, rfl, hheight, htime⟩

/-- A lock on a coin of the next block can only be the one that is always open. -/
theorem lock_eq_zero (hint : T.nHeight tip + 1 < 2 ^ 31) {lockPair : ℤ × ℤ}
    (h : Locked (T.onTop tip) (nTimeOnTop nTime) none txin (T.nHeight tip + 1) lockPair)
    (hheight : lockPair.1 < T.nHeight tip + 1) (htime : lockPair.2 < getMedianTimePast T nTime tip) :
    (txin.nSequence &&& sequenceLocktimeTypeFlag = 0 →
      (txin.nSequence &&& sequenceLocktimeMask).toNat = 0) ∧
    (txin.nSequence &&& sequenceLocktimeTypeFlag ≠ 0 →
      ((txin.nSequence &&& sequenceLocktimeMask) <<< sequenceLocktimeGranularity).toNat = 0) := by
  constructor
  · intro htype
    have hle := h.height htype
    omega
  · intro htype
    obtain ⟨index, hindex, hle⟩ := h.time htype
    have hmax : max ((T.nHeight tip : ℤ) + 1 - 1) 0 = T.nHeight tip := by omega
    have hself : T.getAncestorAt tip (T.nHeight tip) = some tip := by
      rw [T.getAncestorAt_eq, if_pos (by omega), Int.toNat_natCast]
      exact T.forest.ancestor?_self tip
    rw [hmax, BlockIndex.getAncestorAt_onTop le_rfl, hself] at hindex
    obtain rfl := Option.some.inj hindex
    rw [getMedianTimePast_onTop] at hle
    omega

/-- **One input.**  Its lock was below the cached numbers, and these are below the new bounds. -/
theorem unlocked_of_kept {b : ι} {height₀ height : ℤ} (hint₀ : T.nHeight tip₀ + 1 < 2 ^ 31)
    (hint : T.nHeight tip + 1 < 2 ^ 31) (hkept : InputKept T s₀ tip₀ s tip txin)
    (hmono : ∀ a b, T.forest.Le a b → T.forest.Le b tip →
      getMedianTimePast T nTime a ≤ getMedianTimePast T nTime b)
    (hprev₀ : prevHeight s₀ (T.nHeight tip₀ + 1) txin = some height₀)
    (hprev : prevHeight s (T.nHeight tip + 1) txin = some height)
    (hlocked : Locked (T.onTop tip₀) (nTimeOnTop nTime) none txin height₀ (lp.height, lp.time))
    (hlow₀ : lp.height < T.nHeight tip₀ + 1 ∧ lp.time < getMedianTimePast T nTime tip₀)
    (hlow : lp.height < T.nHeight tip + 1 ∧ lp.time < getMedianTimePast T nTime tip)
    (hb₀ : T.forest.Le b tip₀) (hb : T.forest.Le b tip)
    (hmax : height₀ ≠ T.nHeight tip₀ + 1 → height₀ ≤ T.nHeight b) :
    Unlocked (T.onTop tip) (nTimeOnTop nTime) none txin height (T.nHeight tip + 1)
      (getMedianTimePast T nTime tip) := by
  -- an ancestor of the tip, as an ancestor of the block on top of it
  have hancestor : ∀ k : ℤ, 0 ≤ k → k ≤ T.nHeight tip → ∃ a, T.getAncestorAt tip k = some a ∧
      T.forest.Le a tip ∧ (T.onTop tip).getAncestorAt none k = some (some a) := by
    intro k hpos hle
    obtain ⟨a, ha⟩ := T.forest.ancestor?_isSome (b := tip) (k := k.toNat)
      (by show _ ≤ T.nHeight tip; omega)
    have hat : T.getAncestorAt tip k = some a := by
      rw [T.getAncestorAt_eq, if_pos hpos, ha]
    refine ⟨a, hat, (Forest.ancestor?_eq_some_iff.mp ha).1, ?_⟩
    rw [BlockIndex.getAncestorAt_onTop hle, hat]
    rfl
  cases hkept with
  | inPool before now =>
    rw [prevHeight_of_inPool _ before] at hprev₀
    rw [prevHeight_of_inPool _ now] at hprev
    obtain rfl := Option.some.inj hprev₀
    obtain rfl := Option.some.inj hprev
    obtain ⟨hzero, hzeroTime⟩ := lock_eq_zero hint₀ hlocked hlow₀.1 hlow₀.2
    refine ⟨by omega, fun htype => ?_, fun htype => ?_⟩
    · rw [hzero htype]
      omega
    · obtain ⟨a, -, hle, ha⟩ := hancestor (max ((T.nHeight tip : ℤ) + 1 - 1) 0) (by omega) (by omega)
      refine ⟨some a, ha, ?_⟩
      have := hmono a tip hle (Forest.Le.refl tip)
      rw [getMedianTimePast_onTop, hzeroTime htype]
      omega
  | mined h before now =>
    rw [prevHeight_of_inPool _ before] at hprev₀
    rw [prevHeight_of_confirmedAt _ hint now] at hprev
    obtain rfl := Option.some.inj hprev₀
    obtain rfl := Option.some.inj hprev
    have hheight := now.2.1
    obtain ⟨hzero, hzeroTime⟩ := lock_eq_zero hint₀ hlocked hlow₀.1 hlow₀.2
    refine ⟨by omega, fun htype => ?_, fun htype => ?_⟩
    · rw [hzero htype]
      omega
    · -- the time before the block that has the input is not later than that of the tip
      obtain ⟨a, -, hle, ha⟩ := hancestor (max ((h : ℤ) - 1) 0) (by omega) (by omega)
      refine ⟨some a, ha, ?_⟩
      have := hmono a tip hle (Forest.Le.refl tip)
      rw [getMedianTimePast_onTop, hzeroTime htype]
      omega
  | confirmed h before now =>
    rw [prevHeight_of_confirmedAt _ hint₀ before] at hprev₀
    rw [prevHeight_of_confirmedAt _ hint now] at hprev
    obtain rfl := Option.some.inj hprev₀
    obtain rfl := Option.some.inj hprev
    have hheight₀ := before.2.1
    have hheight := now.2.1
    have hbelow : h ≤ T.nHeight b := by
      have := hmax (by omega)
      omega
    refine ⟨by omega, fun htype => ?_, fun htype => ?_⟩
    · have hle := hlocked.height htype
      dsimp only at hle
      omega
    · -- both chains have the block `b`, and with it the same blocks below
      obtain ⟨index, hindex, hle⟩ := hlocked.time htype
      obtain ⟨a, hat, -, ha⟩ := hancestor (max ((h : ℤ) - 1) 0) (by omega) (by omega)
      have hsame : T.getAncestorAt tip₀ (max ((h : ℤ) - 1) 0) =
          T.getAncestorAt tip (max ((h : ℤ) - 1) 0) := by
        have hk : (max ((h : ℤ) - 1) 0).toNat ≤ T.forest.height b := by
          show _ ≤ T.nHeight b
          omega
        rw [T.getAncestorAt_eq, T.getAncestorAt_eq, hb₀.ancestor?_eq hk, hb.ancestor?_eq hk]
      rw [BlockIndex.getAncestorAt_onTop (by omega), hsame, hat] at hindex
      obtain rfl := Option.some.inj hindex
      refine ⟨some a, ha, ?_⟩
      rw [getMedianTimePast_onTop] at hle ⊢
      dsimp only at hle
      omega

/-- **Cached lock points are sound.**  A transaction was accepted on `tip₀`, and the active chain
has its `maxInputBlock`.  If the cached lock points let it pass, then it passes without them. -/
theorem checkSequenceLocks_of_cached [DecidableEq ι] {chainActive : CChain ι}
    {lp₀ left : Option (LockPoints ι)} (hint₀ : T.nHeight tip₀ + 1 < 2 ^ 31)
    (hint : T.nHeight tip + 1 < 2 ^ 31)
    (haccept : checkSequenceLocks T nTime s₀ tx flags lp₀ false tip₀ = some (true, some lp))
    (hactive : chainActive.IsPath T tip) (hvalid : testLockPointValidity T chainActive lp = true)
    (hkept : ∀ txin ∈ tx.vin, InputKept T s₀ tip₀ s tip txin)
    (hmono : ∀ a b, T.forest.Le a b → T.forest.Le b tip →
      getMedianTimePast T nTime a ≤ getMedianTimePast T nTime b)
    (hcached : checkSequenceLocks T nTime s tx flags (some lp) true tip = some (true, left))
    (lp₁ : Option (LockPoints ι)) :
    ∃ left, checkSequenceLocks T nTime s tx flags lp₁ false tip = some (true, left) := by
  obtain ⟨heights₀, left₀, hheights₀, hlocks₀, hblock, hlow₀⟩ := checkSequenceLocks_fresh haccept
  have hlow := of_decide_eq_true (checkSequenceLocks_cached.mp hcached).2.symm
  obtain ⟨heights, hheights⟩ := exists_prevHeights fun txin htxin =>
    (hkept txin htxin).exists_prevHeight hint
  obtain ⟨hlen₀, hzip₀, hmem₀⟩ := prevHeight_of_mem_zip hheights₀
  obtain ⟨hlen, hzip, -⟩ := prevHeight_of_mem_zip hheights
  -- it is enough that the locks are computed and are below the bounds
  suffices hlocks : ∃ lockPair left', calculateSequenceLocks (T.onTop tip) (nTimeOnTop nTime) tx flags
      heights none = some (lockPair, left') ∧ lockPair.1 < T.nHeight tip + 1 ∧
        lockPair.2 < getMedianTimePast T nTime tip by
    obtain ⟨lockPair, left', hlocks, hlocksLow⟩ := hlocks
    refine ⟨lp₁.map fun _ => LockPoints.mk lockPair.1 lockPair.2
      (T.getAncestorAt tip (maxInputHeight (T.nHeight tip + 1) left')), ?_⟩
    unfold checkSequenceLocks
    dsimp only
    rw [if_neg Bool.false_ne_true, hheights]
    simp only [Option.bind_eq_bind]
    rw [hlocks, Option.bind_some, evaluateSequenceLocks_onTop, decide_eq_true hlocksLow]
    rfl
  unfold calculateSequenceLocks at hlocks₀ ⊢
  rw [if_neg (not_not.mpr hlen₀)] at hlocks₀
  rw [if_neg (not_not.mpr hlen)]
  by_cases henforce : tx.nVersion.toUInt32 ≥ 2 ∧ flags &&& locktimeVerifySequence ≠ 0
  · rw [if_neg (not_not.mpr henforce)] at hlocks₀ ⊢
    obtain ⟨hfirst, hfirstTime, hlocked⟩ := sequenceLockLoop_spec _ _ none _ hlocks₀
    dsimp only at hfirst hfirstTime
    have hleft := sequenceLockLoop_heights none _ hlocks₀
    -- the highest block that has a coin
    obtain ⟨hpos, hbound⟩ : 0 ≤ maxInputHeight (T.nHeight tip₀ + 1) left₀ ∧
        maxInputHeight (T.nHeight tip₀ + 1) left₀ ≤ T.nHeight tip₀ := by
      apply maxInputHeight_le (by omega)
      intro height hheight hne
      rw [hleft] at hheight
      obtain ⟨⟨txin, c⟩, hi, rfl⟩ := List.mem_map.mp hheight
      have hprev := hzip₀ _ hi
      dsimp only at hprev hne ⊢
      split_ifs at hne ⊢
      · omega
      · cases hkept txin (List.of_mem_zip hi).1 with
        | inPool before _ | mined _ before _ =>
          rw [prevHeight_of_inPool _ before] at hprev
          exact absurd (Option.some.inj hprev).symm hne
        | confirmed h before _ =>
          rw [prevHeight_of_confirmedAt _ hint₀ before] at hprev
          have := before.2.1
          have := Option.some.inj hprev
          omega
    obtain ⟨b, hbAt⟩ := T.forest.ancestor?_isSome (b := tip₀)
      (k := (maxInputHeight (T.nHeight tip₀ + 1) left₀).toNat) (by show _ ≤ T.nHeight tip₀; omega)
    obtain ⟨hb₀, hbHeight⟩ := Forest.ancestor?_eq_some_iff.mp hbAt
    have hbHeight' : T.nHeight b = (maxInputHeight (T.nHeight tip₀ + 1) left₀).toNat := hbHeight
    rw [T.getAncestorAt_eq, if_pos hpos, hbAt] at hblock
    have hb : T.forest.Le b tip := by
      unfold testLockPointValidity at hvalid
      rw [hblock] at hvalid
      exact hactive.contains_iff.mp hvalid
    apply sequenceLockLoop_of_unlocked none (tx.vin.zip heights)
      (lt_of_le_of_lt hfirst hlow.1) (lt_of_le_of_lt hfirstTime hlow.2)
    rintro ⟨txin, height⟩ hi hon
    obtain ⟨height₀, hi₀⟩ := hmem₀ txin (List.of_mem_zip hi).1
    apply unlocked_of_kept hint₀ hint (hkept txin (List.of_mem_zip hi).1) hmono (hzip₀ _ hi₀)
      (hzip _ hi) (hlocked _ hi₀ hon) hlow₀ hlow hb₀ hb
    intro hne
    have hmem : height₀ ∈ left₀ := by
      rw [hleft]
      apply List.mem_map.mpr
      exact ⟨(txin, height₀), hi₀, if_neg (not_not.mpr hon)⟩
    have := le_maxInputHeight hmem hne
    omega
  · -- the transaction has no relative locks
    rw [if_pos henforce] at hlocks₀ ⊢
    obtain ⟨hpair, -⟩ := Prod.mk.inj (Option.some.inj hlocks₀)
    obtain ⟨hheight, htime⟩ := Prod.mk.inj hpair
    refine ⟨(-1, -1), heights, rfl, ?_, ?_⟩
    · rw [hheight]
      exact hlow.1
    · rw [htime]
      exact hlow.2

end

/-! ### A coin that is mined twice as deep -/

/-- A transaction that waits for a block on top of the one that has its coin. -/
def waiting : CTransaction := ⟨0, 2, [⟨⟨1, 0⟩, [], 1⟩], [], 0⟩

/-- A pool without transactions, over a coin of the second block. -/
def coinPool : CTxMemPool :=
  CTxMemPool.empty (.db ⟨AList.singleton 1 ⟨false, [⟨5, [0x51]⟩], 1, 1⟩, 0⟩)

theorem confirmedAt_coinPool (tip : Fin 3) (h : 1 ≤ lineTree.nHeight tip) :
    ConfirmedAt lineTree coinPool tip 1 1 := by
  refine ⟨rfl, h, ⟨false, [⟨5, [0x51]⟩], 1, 1⟩, ?_, by decide⟩
  decide

local instance neZero_coinPoints : NeZero 3 := ⟨by decide⟩

/-- What is remembered on the second block. -/
def coinPoints : LockPoints (Fin 3) := ⟨1, -1, some 1⟩

theorem checkSequenceLocks_coinPool :
    checkSequenceLocks lineTree (fun _ => 600) coinPool waiting 1 (some ⟨0, 0, none⟩) false 1 =
      some (true, some coinPoints) := by
  decide

/-- Accepted on the second block, and still good on the third. -/
theorem checkSequenceLocks_of_cached_lineTree :
    ∃ left, checkSequenceLocks lineTree (fun _ => 600) coinPool waiting 1 none false 2 =
      some (true, left) :=
  checkSequenceLocks_of_cached (by decide) (by decide) checkSequenceLocks_coinPool
    (show CChain.IsPath lineTree ⟨[some 0, some 1, some 2]⟩ 2 from rfl) (by decide)
    (fun txin htxin => by
      obtain rfl := List.mem_singleton.mp (show txin ∈ [_] from htxin)
      exact .confirmed 1 (confirmedAt_coinPool 1 (by decide)) (confirmedAt_coinPool 2 (by decide)))
    (fun a b _ _ => by revert a b; decide)
    (checkSequenceLocks_cached.mpr ⟨rfl, by decide⟩) none

end LockTime
