/-
# Lock times

A transaction waits for a height or a time in three places.  `IsFinalTx` and `SequenceLocks`
(`libs/server/main.cpp`) look at the block that contains it; `CheckLockTime` and `CheckSequence`
(`libs/server/script/interpreter.cpp`) let a script demand that the transaction waits at least as
long as an operand says.

* `sequenceLockLoop_spec` : the locks of the inputs are below what the loop returns;
* `lt_of_checkLockTime` : what `OP_CHECKLOCKTIMEVERIFY` guarantees;
* `le_of_checkSequence` : what `OP_CHECKSEQUENCEVERIFY` guarantees;
* `timeLocks_bind` : both, for a script that is executed.

An `int` that overflows and a null pointer have no meaning in the source: the functions return
nothing then.
-/
import Hub.SkipList
import Hub.Transaction
import Hub.ScriptFrame
import Hub.ScriptSafety
import Mathlib.Data.List.Sort

open ByteCodec Opcode Bytes Halting

namespace LockTime

/-- `LOCKTIME_THRESHOLD`. -/
def locktimeThreshold : ℕ := 500000000

/-- `CTxIn::SEQUENCE_FINAL`. -/
def sequenceFinal : UInt32 := 0xffffffff

/-- `CTxIn::SEQUENCE_LOCKTIME_DISABLE_FLAG`. -/
def sequenceLocktimeDisableFlag : UInt32 := 0x80000000

/-- `CTxIn::SEQUENCE_LOCKTIME_TYPE_FLAG`. -/
def sequenceLocktimeTypeFlag : UInt32 := 0x400000

/-- `CTxIn::SEQUENCE_LOCKTIME_MASK`. -/
def sequenceLocktimeMask : UInt32 := 0xffff

/-- `CTxIn::SEQUENCE_LOCKTIME_GRANULARITY`. -/
def sequenceLocktimeGranularity : UInt32 := 9

/-- `LOCKTIME_VERIFY_SEQUENCE`. -/
def locktimeVerifySequence : Int32 := 1

/-! ## The block that contains a transaction -/

section

variable {ι : Type} (T : BlockIndex ι) (nTime : ι → UInt32)

/-- The times that `GetMedianTimePast` collects from `pindex` on, oldest first. -/
def pastTimes : ℕ → Option ι → List ℤ
  | 0, _ => []
  | _, none => []
  | k + 1, some pindex => pastTimes k (T.pprev pindex) ++ [((nTime pindex).toNat : ℤ)]

/-- `GetMedianTimePast`. -/
def getMedianTimePast (pindex : ι) : ℤ :=
  let times := (pastTimes T nTime 11 (some pindex)).insertionSort (· ≤ ·)
  times.getD (times.length / 2) 0

/-- `IsFinalTx`. -/
def isFinalTx (tx : CTransaction) (nBlockHeight nBlockTime : ℤ) : Bool :=
  if tx.nLockTime = 0 then true
  else if (tx.nLockTime.toNat : ℤ)
      < (if tx.nLockTime.toNat < locktimeThreshold then nBlockHeight else nBlockTime) then true
  else tx.vin.all fun txin => txin.nSequence == sequenceFinal

/-- An `int`, when it does not overflow. -/
def int? (x : ℤ) : Option ℤ := if -2 ^ 31 ≤ x ∧ x < 2 ^ 31 then some x else none

/-- The loop of `CalculateSequenceLocks` over the inputs and the heights of their coins: the two
minima that it ends with, and the heights that it leaves in `prevHeights`. -/
def sequenceLockLoop (block : ι) : List (CTxIn × ℤ) → ℤ → ℤ → Option ((ℤ × ℤ) × List ℤ)
  | [], nMinHeight, nMinTime => some ((nMinHeight, nMinTime), [])
  | (txin, nCoinHeight) :: rest, nMinHeight, nMinTime =>
    if txin.nSequence &&& sequenceLocktimeDisableFlag ≠ 0 then do
      let (lockPair, prevHeights) ← sequenceLockLoop block rest nMinHeight nMinTime
      pure (lockPair, 0 :: prevHeights)
    else if txin.nSequence &&& sequenceLocktimeTypeFlag ≠ 0 then do
      let index ← T.getAncestorAt block (max (← int? (nCoinHeight - 1)) 0)
      let nCoinTime := getMedianTimePast T nTime index
      let span := (txin.nSequence &&& sequenceLocktimeMask) <<< sequenceLocktimeGranularity
      let (lockPair, prevHeights) ←
        sequenceLockLoop block rest nMinHeight (max nMinTime (nCoinTime + span.toNat - 1))
      pure (lockPair, nCoinHeight :: prevHeights)
    else do
      let sum ← int? (nCoinHeight + (txin.nSequence &&& sequenceLocktimeMask).toNat)
      let (lockPair, prevHeights) ←
        sequenceLockLoop block rest (max nMinHeight (← int? (sum - 1))) nMinTime
      pure (lockPair, nCoinHeight :: prevHeights)

/-- `CalculateSequenceLocks`. -/
def calculateSequenceLocks (tx : CTransaction) (flags : Int32) (prevHeights : List ℤ) (block : ι) :
    Option ((ℤ × ℤ) × List ℤ) :=
  if prevHeights.length ≠ tx.vin.length then none
  else if ¬ (tx.nVersion.toUInt32 ≥ 2 ∧ flags &&& locktimeVerifySequence ≠ 0) then
    some ((-1, -1), prevHeights)
  else sequenceLockLoop T nTime block (tx.vin.zip prevHeights) (-1) (-1)

/-- `EvaluateSequenceLocks`. -/
def evaluateSequenceLocks (block : ι) (lockPair : ℤ × ℤ) : Option Bool :=
  match T.pprev block with
  | none => none
  | some pprev =>
    let nBlockTime := getMedianTimePast T nTime pprev
    if lockPair.1 ≥ T.nHeight block ∨ lockPair.2 ≥ nBlockTime then some false else some true

/-- `SequenceLocks`. -/
def sequenceLocks (tx : CTransaction) (flags : Int32) (prevHeights : List ℤ) (block : ι) :
    Option Bool :=
  match calculateSequenceLocks T nTime tx flags prevHeights block with
  | none => none
  | some (lockPair, _) => evaluateSequenceLocks T nTime block lockPair

end

/-! ## What a script demands -/

/-- The bits of an `int64_t` that are in a mask of 32 bits. -/
def landMask (n : ℤ) (mask : UInt32) : ℕ := (BitVec.ofInt 64 n).toNat &&& mask.toNat

/-- `TransactionSignatureChecker::CheckLockTime` of the input `txin`. -/
def checkLockTime (txTo : CTransaction) (txin : CTxIn) (nLockTime : CScriptNum) : Bool :=
  if ¬ ((txTo.nLockTime.toNat < locktimeThreshold ∧ nLockTime.m_value < locktimeThreshold) ∨
      (txTo.nLockTime.toNat ≥ locktimeThreshold ∧ nLockTime.m_value ≥ locktimeThreshold)) then false
  else if nLockTime.m_value > txTo.nLockTime.toNat then false
  else if sequenceFinal = txin.nSequence then false
  else true

/-- `TransactionSignatureChecker::CheckSequence` of the input `txin`. -/
def checkSequence (txTo : CTransaction) (txin : CTxIn) (nSequence : CScriptNum) : Bool :=
  if txTo.nVersion.toUInt32 < 2 then false
  else if txin.nSequence &&& sequenceLocktimeDisableFlag ≠ 0 then false
  else
    let nLockTimeMask := sequenceLocktimeTypeFlag ||| sequenceLocktimeMask
    let txToSequenceMasked := txin.nSequence.toNat &&& nLockTimeMask.toNat
    let nSequenceMasked := landMask nSequence.m_value nLockTimeMask
    let typeFlag := sequenceLocktimeTypeFlag.toNat
    if ¬ ((txToSequenceMasked < typeFlag ∧ nSequenceMasked < typeFlag) ∨
        (txToSequenceMasked ≥ typeFlag ∧ nSequenceMasked ≥ typeFlag)) then false
    else if nSequenceMasked > txToSequenceMasked then false
    else true

/-- `TransactionSignatureChecker`: a transaction and one of its inputs. -/
structure TransactionSignatureChecker where
  txTo : CTransaction
  nIn : ℕ
  hnIn : nIn < txTo.vin.length

namespace TransactionSignatureChecker

/-- `txTo->vin[nIn]`. -/
def txin (c : TransactionSignatureChecker) : CTxIn := c.txTo.vin.get ⟨c.nIn, c.hnIn⟩

/-- The virtual functions, with `CheckSig` as it may be. -/
def checker (c : TransactionSignatureChecker)
    (checkSig : Bytes → Bytes → CScript → Script.Flags → Bool) :
    Script.BaseSignatureChecker where
  checkSig := checkSig
  checkLockTime := checkLockTime c.txTo c.txin
  checkSequence := checkSequence c.txTo c.txin

end TransactionSignatureChecker

/-! ## The locks of the inputs -/

section

variable {ι : Type} (T : BlockIndex ι) (nTime : ι → UInt32)

/-- The lock of an input on a coin of height `nCoinHeight` is at most the two minima. -/
structure Locked (block : ι) (txin : CTxIn) (nCoinHeight : ℤ) (lockPair : ℤ × ℤ) : Prop where
  height : txin.nSequence &&& sequenceLocktimeTypeFlag = 0 →
    nCoinHeight + (txin.nSequence &&& sequenceLocktimeMask).toNat - 1 ≤ lockPair.1
  time : txin.nSequence &&& sequenceLocktimeTypeFlag ≠ 0 →
    ∃ index, T.getAncestorAt block (max (nCoinHeight - 1) 0) = some index ∧
      getMedianTimePast T nTime index
        + ((txin.nSequence &&& sequenceLocktimeMask) <<< sequenceLocktimeGranularity).toNat - 1
          ≤ lockPair.2

theorem int?_eq_some {x y : ℤ} (h : int? x = some y) : y = x := by
  unfold int? at h
  split_ifs at h
  exact (Option.some.inj h).symm

/-- **What the loop returns.**  The minima only grow, and every input that is not disabled has
its lock in them. -/
theorem sequenceLockLoop_spec (block : ι) (inputs : List (CTxIn × ℤ)) {h t : ℤ}
    {lockPair : ℤ × ℤ} {heights : List ℤ}
    (hloop : sequenceLockLoop T nTime block inputs h t = some (lockPair, heights)) :
    h ≤ lockPair.1 ∧ t ≤ lockPair.2 ∧ ∀ i ∈ inputs,
      i.1.nSequence &&& sequenceLocktimeDisableFlag = 0 → Locked T nTime block i.1 i.2 lockPair := by
  induction inputs generalizing h t heights with
  | nil =>
    obtain ⟨rfl, -⟩ := Prod.mk.inj (Option.some.inj hloop)
    exact ⟨le_rfl, le_rfl, fun i hi => absurd hi List.not_mem_nil⟩
  | cons input rest ih =>
    obtain ⟨txin, nCoinHeight⟩ := input
    rw [sequenceLockLoop] at hloop
    split_ifs at hloop with hdisable htype
    · -- a disabled input is passed over
      obtain ⟨⟨pair, _⟩, hrest, hpure⟩ := Option.bind_eq_some_iff.mp hloop
      obtain ⟨rfl, -⟩ := Prod.mk.inj (Option.some.inj hpure)
      obtain ⟨hh, ht, hlocks⟩ := ih hrest
      refine ⟨hh, ht, fun i hi hon => ?_⟩
      rcases List.mem_cons.mp hi with rfl | hi
      · exact absurd hon hdisable
      · exact hlocks i hi hon
    · -- a lock on the time
      obtain ⟨below, hbelow, hloop⟩ := Option.bind_eq_some_iff.mp hloop
      obtain rfl := int?_eq_some hbelow
      obtain ⟨index, hindex, hloop⟩ := Option.bind_eq_some_iff.mp hloop
      obtain ⟨⟨pair, _⟩, hrest, hpure⟩ := Option.bind_eq_some_iff.mp hloop
      obtain ⟨rfl, -⟩ := Prod.mk.inj (Option.some.inj hpure)
      obtain ⟨hh, ht, hlocks⟩ := ih hrest
      refine ⟨hh, le_trans (le_max_left _ _) ht, fun i hi hon => ?_⟩
      rcases List.mem_cons.mp hi with rfl | hi
      · exact ⟨fun hzero => absurd hzero htype,
          fun _ => ⟨index, hindex, le_trans (le_max_right _ _) ht⟩⟩
      · exact hlocks i hi hon
    · -- a lock on the height
      obtain ⟨sum, hsum, hloop⟩ := Option.bind_eq_some_iff.mp hloop
      obtain rfl := int?_eq_some hsum
      obtain ⟨last, hlast, hloop⟩ := Option.bind_eq_some_iff.mp hloop
      obtain rfl := int?_eq_some hlast
      obtain ⟨⟨pair, _⟩, hrest, hpure⟩ := Option.bind_eq_some_iff.mp hloop
      obtain ⟨rfl, -⟩ := Prod.mk.inj (Option.some.inj hpure)
      obtain ⟨hh, ht, hlocks⟩ := ih hrest
      refine ⟨le_trans (le_max_left _ _) hh, ht, fun i hi hon => ?_⟩
      rcases List.mem_cons.mp hi with rfl | hi
      · exact ⟨fun _ => le_trans (le_max_right _ _) hh, fun hne => absurd (not_not.mp htype) hne⟩
      · exact hlocks i hi hon

/-- An input whose lock is enforced, in a block that `SequenceLocks` accepts. -/
theorem locked_of_sequenceLocks {tx : CTransaction} {flags : Int32} {prevHeights : List ℤ}
    {block pprev : ι} {nIn : ℕ} {txin : CTxIn} {nCoinHeight : ℤ}
    (h : sequenceLocks T nTime tx flags prevHeights block = some true)
    (hprev : T.pprev block = some pprev) (hversion : tx.nVersion.toUInt32 ≥ 2)
    (hflags : flags &&& locktimeVerifySequence ≠ 0) (hin : tx.vin[nIn]? = some txin)
    (hcoin : prevHeights[nIn]? = some nCoinHeight)
    (hon : txin.nSequence &&& sequenceLocktimeDisableFlag = 0) :
    ∃ lockPair : ℤ × ℤ, Locked T nTime block txin nCoinHeight lockPair ∧
      lockPair.1 < T.nHeight block ∧ lockPair.2 < getMedianTimePast T nTime pprev := by
  unfold sequenceLocks at h
  cases hlocks : calculateSequenceLocks T nTime tx flags prevHeights block with
  | none =>
    rw [hlocks] at h
    cases h
  | some result =>
    obtain ⟨lockPair, heights⟩ := result
    rw [hlocks] at h
    simp only [evaluateSequenceLocks, hprev] at h
    have hpast : ¬ (lockPair.1 ≥ T.nHeight block ∨
        lockPair.2 ≥ getMedianTimePast T nTime pprev) := by
      intro hpast
      rw [if_pos hpast] at h
      cases h
    obtain ⟨hheight, htime⟩ := not_or.mp hpast
    refine ⟨lockPair, ?_, by omega, by omega⟩
    unfold calculateSequenceLocks at hlocks
    split_ifs at hlocks with hlen henforce
    · have hmem : (txin, nCoinHeight) ∈ tx.vin.zip prevHeights := by
        apply List.mem_of_getElem? (i := nIn)
        rw [List.getElem?_zip_eq_some]
        exact ⟨hin, hcoin⟩
      exact (sequenceLockLoop_spec T nTime block _ hlocks).2.2 _ hmem hon
    · exact absurd ⟨hversion, hflags⟩ henforce

/-- The seconds of a lock on the time. -/
theorem toNat_span (nSequence : UInt32) :
    ((nSequence &&& sequenceLocktimeMask) <<< sequenceLocktimeGranularity).toNat
      = 512 * (nSequence &&& sequenceLocktimeMask).toNat := by
  have hle : (nSequence &&& sequenceLocktimeMask).toNat ≤ 65535 := by
    rw [UInt32.toNat_and]
    exact Nat.and_le_right
  have hshift : sequenceLocktimeGranularity.toNat % 32 = 9 := by decide
  rw [UInt32.toNat_shiftLeft, hshift, Nat.shiftLeft_eq]
  omega

/-- The block before the block of a coin. -/
theorem getAncestorAt_of_pprev {B C A : ι} (hC : T.forest.Le C B) (hA : T.pprev C = some A) :
    T.getAncestorAt B (max ((T.nHeight C : ℤ) - 1) 0) = some A := by
  have hheight := T.height_child C A hA
  have hle : T.forest.Le A B := (Forest.Le.of_parent hA).trans hC
  have hmax : max ((T.nHeight C : ℤ) - 1) 0 = (T.nHeight A : ℤ) := by omega
  rw [hmax, BlockIndex.getAncestorAt_eq, if_pos (by omega), Int.toNat_natCast]
  exact Forest.ancestor?_height_iff.mpr hle

end

/-! ## What the operands guarantee -/

/-- The bits of `CheckSequence`: the bit of the type and the low 16. -/
theorem and_mask (x : ℕ) : x &&& 0x40ffff = (x &&& 0x400000) + x % 65536 := by
  have hor : (0x40ffff : ℕ) = 2 ^ 22 ||| (2 ^ 16 - 1) := by decide
  have hlow : x % 2 ^ 16 < 2 ^ 22 := lt_of_lt_of_le (Nat.mod_lt x (by decide)) (by decide)
  have htype : x &&& 0x400000 = 2 ^ 22 * (x.testBit 22).toNat :=
    (Nat.and_two_pow x 22).trans (Nat.mul_comm _ _)
  rw [htype]
  have hsum := Nat.two_pow_add_eq_or_of_lt hlow (x.testBit 22).toNat
  rw [hor, Nat.and_or_distrib_left, Nat.and_two_pow_sub_one_eq_mod,
    Nat.and_two_pow, Nat.mul_comm, ← hsum]
  rfl

/-- The bit of the type is set, or not. -/
theorem and_typeFlag (x : ℕ) : x &&& 0x400000 = 0 ∨ x &&& 0x400000 = 0x400000 := by
  rw [show x &&& 0x400000 = (x.testBit 22).toNat * 0x400000 from Nat.and_two_pow x 22]
  cases x.testBit 22 <;> decide

/-- The operand locks a time, not a height. -/
def IsTimeLock (n : ℤ) : Prop := n.toNat &&& sequenceLocktimeTypeFlag.toNat ≠ 0

instance : DecidablePred IsTimeLock := fun _ => inferInstanceAs (Decidable (_ ≠ _))

/-- **`CheckLockTime`** of a transaction that is final. -/
theorem lt_of_checkLockTime {tx : CTransaction} {txin : CTxIn} {n nBlockHeight nBlockTime : ℤ}
    (hmem : txin ∈ tx.vin) (hfinal : isFinalTx tx nBlockHeight nBlockTime = true)
    (h : checkLockTime tx txin ⟨n⟩ = true) :
    (0 < n → n < locktimeThreshold → n < nBlockHeight) ∧
      (locktimeThreshold ≤ n → n < nBlockTime) := by
  have hthreshold : locktimeThreshold = 500000000 := rfl
  unfold checkLockTime at h
  split_ifs at h with hkind hle hlast
  simp only at hkind hle
  unfold isFinalTx at hfinal
  have hnotAll : ¬ (tx.vin.all fun txin => txin.nSequence == sequenceFinal) = true := by
    intro hall
    exact hlast (beq_iff_eq.mp (List.all_eq_true.mp hall txin hmem)).symm
  by_cases hzero : tx.nLockTime = 0
  · -- the operand is at most zero
    have hnat : tx.nLockTime.toNat = 0 := by
      rw [hzero]
      rfl
    omega
  · rw [if_neg hzero] at hfinal
    have hlt : (tx.nLockTime.toNat : ℤ)
        < if tx.nLockTime.toNat < locktimeThreshold then nBlockHeight else nBlockTime := by
      by_contra hge
      rw [if_neg hge] at hfinal
      exact hnotAll hfinal
    constructor
    · intro _ hn
      rw [if_pos (by omega)] at hlt
      omega
    · intro hn
      rw [if_neg (by omega)] at hlt
      omega

/-- **`CheckSequence`**: the input waits in the same way, and at least as long. -/
theorem le_of_checkSequence {tx : CTransaction} {txin : CTxIn} {n : ℤ} (hn : 0 ≤ n)
    (hlt : n < 2 ^ 63) (h : checkSequence tx txin ⟨n⟩ = true) :
    tx.nVersion.toUInt32 ≥ 2 ∧ txin.nSequence &&& sequenceLocktimeDisableFlag = 0 ∧
      (IsTimeLock n ↔ txin.nSequence &&& sequenceLocktimeTypeFlag ≠ 0) ∧
      n % 65536 ≤ (txin.nSequence &&& sequenceLocktimeMask).toNat := by
  unfold checkSequence at h
  split_ifs at h with hversion hdisable
  simp only at h
  split_ifs at h with hkind hle
  have hnat : (BitVec.ofInt 64 n).toNat = n.toNat := by
    rw [BitVec.toNat_ofInt]
    omega
  have hmask : (sequenceLocktimeTypeFlag ||| sequenceLocktimeMask).toNat = 0x40ffff := rfl
  have htype : sequenceLocktimeTypeFlag.toNat = 0x400000 := rfl
  have hlow : (txin.nSequence &&& sequenceLocktimeMask).toNat
      = txin.nSequence.toNat % 65536 := by
    rw [UInt32.toNat_and]
    exact Nat.and_two_pow_sub_one_eq_mod _ 16
  have hflag : txin.nSequence &&& sequenceLocktimeTypeFlag = 0
      ↔ txin.nSequence.toNat &&& 0x400000 = 0 := by
    rw [← UInt32.toNat_inj, UInt32.toNat_and, htype]
    rfl
  rw [landMask, hmask, htype, hnat, and_mask, and_mask] at hkind
  rw [landMask, hmask, hnat, and_mask, and_mask] at hle
  have hcoin := and_typeFlag txin.nSequence.toNat
  have hop := and_typeFlag n.toNat
  have hmod := Nat.mod_lt txin.nSequence.toNat (show 65536 > 0 by decide)
  have hmod' := Nat.mod_lt n.toNat (show 65536 > 0 by decide)
  refine ⟨UInt32.not_lt.mp hversion, not_not.mp hdisable, ?_, ?_⟩
  · rw [IsTimeLock, htype, ne_eq, ne_eq, hflag]
    omega
  · rw [hlow]
    omega

/-! ## Scripts -/

section

open Script

variable (crypto : Crypto) (checker : BaseSignatureChecker) (flags : Flags)

/-- The operand of the two operations, if they do not fail. -/
theorem operand_eq_ok {body : CScriptNum → Prog Unit} {m m' : Machine} {a : Unit}
    (h : (do
      require 1 .invalidStackOperation
      let n ← scriptNum flags (← stacktop (-1)) 5
      body n : Prog Unit) m = .ok a m') :
    ∃ vch, at? m.stack (-1) = some vch ∧ vch.length ≤ 5 ∧
      body ⟨CScriptNum.setVch vch⟩ m = .ok a m' := by
  obtain ⟨_, m₁, h₁, hrest₁⟩ := exists_of_bind_eq_ok h
  obtain ⟨m₁', m₁'', hget, hrequire⟩ := exists_of_bind_eq_ok h₁
  cases hget
  obtain ⟨-, rfl⟩ := haltIf_eq_ok hrequire
  obtain ⟨vch, m₂, h₂, hrest₂⟩ := exists_of_bind_eq_ok hrest₁
  obtain ⟨htop, rfl⟩ := stacktop_eq_ok h₂
  obtain ⟨bn, m₃, h₃, hrest₃⟩ := exists_of_bind_eq_ok hrest₂
  obtain ⟨rfl, hlen, rfl⟩ := scriptNum_eq_ok flags h₃
  exact ⟨vch, htop, hlen, hrest₃⟩

/-- `OP_CHECKLOCKTIMEVERIFY`, if it does not fail. -/
theorem checkLockTimeVerify_eq_ok {m m' : Machine} {a : Unit}
    (hflag : flags.has verifyCheckLockTimeVerify = true)
    (h : checkLockTimeVerify checker flags m = .ok a m') :
    ∃ vch, at? m.stack (-1) = some vch ∧ checker.checkLockTime ⟨CScriptNum.setVch vch⟩ = true := by
  rw [checkLockTimeVerify, if_neg (not_not.mpr hflag)] at h
  obtain ⟨vch, htop, -, hbody⟩ := operand_eq_ok flags h
  obtain ⟨_, m₁, -, hrest⟩ := exists_of_bind_eq_ok hbody
  obtain ⟨hcheck, -⟩ := haltIf_eq_ok hrest
  exact ⟨vch, htop, not_not.mp hcheck⟩

/-- `OP_CHECKSEQUENCEVERIFY`, if it does not fail. -/
theorem checkSequenceVerify_eq_ok {m m' : Machine} {a : Unit}
    (hflag : flags.has verifyCheckSequenceVerify = true)
    (h : checkSequenceVerify checker flags m = .ok a m') :
    ∃ vch, at? m.stack (-1) = some vch ∧ vch.length ≤ 5 ∧ 0 ≤ CScriptNum.setVch vch ∧
      ((CScriptNum.setVch vch).toNat &&& Script.sequenceLocktimeDisableFlag = 0 →
        checker.checkSequence ⟨CScriptNum.setVch vch⟩ = true) := by
  rw [checkSequenceVerify, if_neg (not_not.mpr hflag)] at h
  obtain ⟨vch, htop, hlen, hbody⟩ := operand_eq_ok flags h
  obtain ⟨_, m₁, h₁, hrest⟩ := exists_of_bind_eq_ok hbody
  obtain ⟨hneg, rfl⟩ := haltIf_eq_ok h₁
  refine ⟨vch, htop, hlen, not_lt.mp hneg, fun hon => ?_⟩
  rw [doIf, if_pos hon] at hrest
  obtain ⟨hcheck, -⟩ := haltIf_eq_ok hrest
  exact not_not.mp hcheck

/-- The two operations, in an instruction that is executed. -/
theorem execInstruction_lockTime (vch : Bytes) :
    execInstruction crypto checker flags true opCheckLockTimeVerify vch
        = checkLockTimeVerify checker flags ∧
      execInstruction crypto checker flags true opCheckSequenceVerify vch
        = checkSequenceVerify checker flags := by
  constructor
  · rw [execInstruction, if_neg fun h => absurd h.2 (by decide), if_pos (.inl rfl)]
    rfl
  · rw [execInstruction, if_neg fun h => absurd h.2 (by decide), if_pos (.inl rfl)]
    rfl

theorem at?_top {stack : List Bytes} {vch : Bytes} (h : at? stack (-1) = some vch) :
    stack.head? = some vch := by
  cases stack with
  | nil => cases h
  | cons v stack => exact h

end

/-- **Lock times bind.**  The block `B` contains the transaction, is final for it and has its
sequence locks, and `C` is the block of the coin that the input spends.  If the script of the
input gets past `OP_CHECKLOCKTIMEVERIFY` or `OP_CHECKSEQUENCEVERIFY`, then `B` is as high, or as
late, as the operand on the stack says. -/
theorem timeLocks_bind {ι : Type} (T : BlockIndex ι) (nTime : ι → UInt32)
    (c : TransactionSignatureChecker)
    (checkSig : Bytes → Bytes → CScript → Script.Flags → Bool)
    {lockFlags : Int32} {prevHeights : List ℤ} {B P C : ι} (hprev : T.pprev B = some P)
    (hC : T.forest.Le C B) (hcoin : prevHeights[c.nIn]? = some (T.nHeight C : ℤ))
    (hflags : lockFlags &&& locktimeVerifySequence ≠ 0)
    (hfinal : isFinalTx c.txTo (T.nHeight B) (getMedianTimePast T nTime P) = true)
    (hlocks : sequenceLocks T nTime c.txTo lockFlags prevHeights B = some true)
    (crypto : Script.Crypto) (flags : Script.Flags) {m m' : Script.Machine} {a : Unit}
    {opcode : Opcode} {operand pc : Bytes}
    (hget : CScript.getOp m.pc = some (opcode, operand, pc)) (hexec : m.fExec = true)
    (hstep : Script.step crypto (c.checker checkSig) flags m = .ok a m') :
    (opcode = Opcode.opCheckLockTimeVerify →
      flags.has Script.verifyCheckLockTimeVerify = true →
      ∃ vch, m.stack.head? = some vch ∧
        (0 < CScriptNum.setVch vch → CScriptNum.setVch vch < locktimeThreshold →
          CScriptNum.setVch vch < T.nHeight B) ∧
        (locktimeThreshold ≤ CScriptNum.setVch vch →
          CScriptNum.setVch vch < getMedianTimePast T nTime P)) ∧
    (opcode = Opcode.opCheckSequenceVerify →
      flags.has Script.verifyCheckSequenceVerify = true →
      ∃ vch, m.stack.head? = some vch ∧
        ((CScriptNum.setVch vch).toNat &&& Script.sequenceLocktimeDisableFlag = 0 →
          (¬ IsTimeLock (CScriptNum.setVch vch) →
            T.nHeight C + CScriptNum.setVch vch % 65536 ≤ T.nHeight B) ∧
          (IsTimeLock (CScriptNum.setVch vch) → ∀ A, T.pprev C = some A →
            getMedianTimePast T nTime A + 512 * (CScriptNum.setVch vch % 65536)
              ≤ getMedianTimePast T nTime P))) := by
  have hin : c.txTo.vin[c.nIn]? = some c.txin := List.getElem?_eq_getElem c.hnIn
  have hmem : c.txin ∈ c.txTo.vin := List.mem_of_getElem? hin
  obtain ⟨m₁, m₂, hstack, hrun⟩ :=
    Script.execInstruction_of_step flags opcode crypto (c.checker checkSig) hget hstep
  rw [hexec] at hrun
  obtain ⟨hlockTime, hsequence⟩ :=
    execInstruction_lockTime crypto (c.checker checkSig) flags operand
  refine ⟨?_, ?_⟩
  · rintro rfl hflag
    rw [hlockTime] at hrun
    obtain ⟨vch, htop, hcheck⟩ := checkLockTimeVerify_eq_ok _ flags hflag hrun
    refine ⟨vch, hstack ▸ at?_top htop, ?_⟩
    exact lt_of_checkLockTime hmem hfinal hcheck
  · rintro rfl hflag
    rw [hsequence] at hrun
    obtain ⟨vch, htop, hlen, hpos, hcheck⟩ := checkSequenceVerify_eq_ok _ flags hflag hrun
    refine ⟨vch, hstack ▸ at?_top htop, fun hon => ?_⟩
    have habs := CScriptNum.natAbs_setVch_lt hlen (by decide)
    obtain ⟨hversion, hdisable, htype, hlow⟩ :=
      le_of_checkSequence hpos (by omega) (hcheck hon)
    obtain ⟨lockPair, hlocked, hheight, htime⟩ := locked_of_sequenceLocks T nTime hlocks hprev
      hversion hflags hin hcoin hdisable
    refine ⟨fun hnot => ?_, fun hlock A hA => ?_⟩
    · have hle := hlocked.height (by_contra fun hne => hnot (htype.mpr hne))
      omega
    · obtain ⟨index, hindex, hle⟩ := hlocked.time (htype.mp hlock)
      rw [getAncestorAt_of_pprev T hC hA] at hindex
      obtain rfl := Option.some.inj hindex
      rw [toNat_span] at hle
      omega

local instance neZero_lineTree : NeZero 3 := ⟨by decide⟩

/-- Three blocks in a row. -/
def lineTree : BlockIndex (Fin 3) where
  pprev := ![none, some 0, some 1]
  nHeight := Fin.val
  nChainWork := ![1, 2, 3]
  pskip := fun _ => none
  height_root := by decide
  height_child := by decide
  skip := by simp

/-- A spend of a coin, by height and by age. -/
def lineSpend : TransactionSignatureChecker :=
  ⟨⟨0, 2, [⟨⟨1, 0⟩, [], 1⟩], [], 1⟩, 0, by decide⟩

/-- The second block has the coin, and the third one spends it, by a script with one of the
operations. -/
theorem timeLocks_bind_lineTree :
    (∃ vch, ([[1]] : List Bytes).head? = some vch ∧
      (0 < CScriptNum.setVch vch → CScriptNum.setVch vch < locktimeThreshold →
        CScriptNum.setVch vch < lineTree.nHeight 2) ∧
      (locktimeThreshold ≤ CScriptNum.setVch vch →
        CScriptNum.setVch vch < getMedianTimePast lineTree (fun _ => 600) 1)) ∧
    ∃ vch, ([[1]] : List Bytes).head? = some vch ∧
      ((CScriptNum.setVch vch).toNat &&& Script.sequenceLocktimeDisableFlag = 0 →
        (¬ IsTimeLock (CScriptNum.setVch vch) →
          lineTree.nHeight 1 + CScriptNum.setVch vch % 65536 ≤ lineTree.nHeight 2) ∧
        (IsTimeLock (CScriptNum.setVch vch) → ∀ A, lineTree.pprev 1 = some A →
          getMedianTimePast lineTree (fun _ => 600) A + 512 * (CScriptNum.setVch vch % 65536)
            ≤ getMedianTimePast lineTree (fun _ => 600) 1)) := by
  have hone : [(1 : ℤ)][0]? = some (lineTree.nHeight 1 : ℤ) := rfl
  have hflags : (1 : Int32) &&& locktimeVerifySequence ≠ 0 := by decide
  have hfinal : isFinalTx lineSpend.txTo (lineTree.nHeight 2)
      (getMedianTimePast lineTree (fun _ => 600) 1) = true := by decide
  have hlocks : sequenceLocks lineTree (fun _ => 600) lineSpend.txTo 1 [1] 2 = some true := by
    decide
  constructor
  · exact (timeLocks_bind lineTree (fun _ => 600) lineSpend (fun _ _ _ _ => false) (B := 2)
      (P := 1) (C := 1) rfl ⟨1, rfl⟩ hone hflags hfinal hlocks Script.nullCrypto
      Script.verifyCheckLockTimeVerify
      (m := { stack := [[1]], pc := [Opcode.opCheckLockTimeVerify] })
      (CScript.getOp_of_gt (by decide) (by decide)) rfl rfl).1 rfl (by decide)
  · exact (timeLocks_bind lineTree (fun _ => 600) lineSpend (fun _ _ _ _ => false) (B := 2)
      (P := 1) (C := 1) rfl ⟨1, rfl⟩ hone hflags hfinal hlocks Script.nullCrypto
      Script.verifyCheckSequenceVerify
      (m := { stack := [[1]], pc := [Opcode.opCheckSequenceVerify] })
      (CScript.getOp_of_gt (by decide) (by decide)) rfl rfl).2 rfl (by decide)

end LockTime
