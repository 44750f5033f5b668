/-
# The fee estimator

The bookkeeping of `CBlockPolicyEstimator` (`libs/server/policy/fees.cpp`): which transactions of
the pool are tracked, and in `TxConfirmStats` how many of them there are in each bucket, by the
height they came in at.  For the last heights that is a ring, `unconfTxs`, and a new block moves the
numbers of its slot to `oldUnconfTxs`.

As long as the heights of the blocks go up by one, the ring and the older numbers are what can be
counted in the pool (`Tracks`), and a transaction is always there where `removeTx` looks for it
(`estimator_run_spec`).

Fee rates and priorities are floating-point numbers, and are left out with all that is averaged over
them: whether a transaction is a data point, and in which bucket, comes with the call.
-/
import Hub.Maps
import Hub.Transaction
import Mathlib

namespace FeeEstimator

/-- `MAX_BLOCK_CONFIRMS`. -/
abbrev maxBlockConfirms : ℕ := 25

/-- The kinds of statistics, `feeStats` and `priStats`. -/
inductive DataType where
  | feeRate
  | priority
  deriving DecidableEq

/-- What `removeTx` and `processTransaction` complain about. -/
inductive LogLine where
  | blocksAgoNegative
  | removedFromOld (bucketIndex : ℕ)
  | removedFromBlockIndex (blockIndex bucketIndex : ℕ)
  | notFound (hash : Uint256)
  | alreadyTracked (hash : Uint256)
  deriving DecidableEq

/-- It is no error of `TxConfirmStats::removeTx`. -/
def LogLine.Harmless : LogLine → Prop
  | .notFound _ => True
  | .alreadyTracked _ => True
  | _ => False

/-- `TxConfirmStats`, with the counters for transactions in the pool. -/
structure TxConfirmStats (buckets : ℕ) where
  unconfTxs : Fin maxBlockConfirms → Fin buckets → ℤ
  oldUnconfTxs : Fin buckets → ℤ

/-- The slot for a height. -/
def blockIndex (nBlockHeight : UInt32) : Fin maxBlockConfirms :=
  ⟨nBlockHeight.toNat % maxBlockConfirms, Nat.mod_lt _ (by decide)⟩

namespace TxConfirmStats

variable {buckets : ℕ}

/-- `Initialize`. -/
def empty : TxConfirmStats buckets := ⟨fun _ _ => 0, fun _ => 0⟩

/-- `ClearCurrent`. -/
def clearCurrent (s : TxConfirmStats buckets) (nBlockHeight : UInt32) : TxConfirmStats buckets where
  oldUnconfTxs := fun j => s.oldUnconfTxs j + s.unconfTxs (blockIndex nBlockHeight) j
  unconfTxs := fun i j => if i = blockIndex nBlockHeight then 0 else s.unconfTxs i j

/-- `NewTx`, into the bucket `bucketIndex`. -/
def newTx (s : TxConfirmStats buckets) (nBlockHeight : UInt32) (bucketIndex : Fin buckets) :
    TxConfirmStats buckets :=
  { s with unconfTxs := fun i j =>
      if i = blockIndex nBlockHeight ∧ j = bucketIndex then s.unconfTxs i j + 1
      else s.unconfTxs i j }

/-- The `int` that `removeTx` goes by. -/
def blocksAgo (entryHeight nBestSeenHeight : UInt32) : ℤ :=
  if nBestSeenHeight = 0 then 0 else (nBestSeenHeight - entryHeight).toInt32.toInt

/-- `removeTx`. -/
def removeTx (s : TxConfirmStats buckets) (entryHeight nBestSeenHeight : UInt32)
    (bucketIndex : Fin buckets) : TxConfirmStats buckets × List LogLine :=
  if blocksAgo entryHeight nBestSeenHeight < 0 then (s, [.blocksAgoNegative])
  else if (maxBlockConfirms : ℤ) ≤ blocksAgo entryHeight nBestSeenHeight then
    if 0 < s.oldUnconfTxs bucketIndex then
      ({ s with oldUnconfTxs := fun j =>
          if j = bucketIndex then s.oldUnconfTxs j - 1 else s.oldUnconfTxs j }, [])
    else (s, [.removedFromOld bucketIndex])
  else if 0 < s.unconfTxs (blockIndex entryHeight) bucketIndex then
    ({ s with unconfTxs := fun i j =>
        if i = blockIndex entryHeight ∧ j = bucketIndex then s.unconfTxs i j - 1
        else s.unconfTxs i j }, [])
  else (s, [.removedFromBlockIndex (blockIndex entryHeight) bucketIndex])

end TxConfirmStats

section

variable {buckets : DataType → ℕ}

/-- `TxStatsInfo`; the bucket goes with the statistics it is of. -/
structure TxStatsInfo (buckets : DataType → ℕ) where
  stats : Option (Σ d, Fin (buckets d))
  blockHeight : UInt32

/-- What `processTransaction` reads of a `CTxMemPoolEntry`, and what `isPriDataPoint`,
`isFeeDataPoint` and the look-up of the bucket say about it. -/
structure Entry (buckets : DataType → ℕ) where
  hash : Uint256
  height : UInt32
  wasClearAtEntry : Bool
  dataPoint : Option (Σ d, Fin (buckets d))

/-- `CBlockPolicyEstimator`, and what it has written to the log. -/
structure CBlockPolicyEstimator (buckets : DataType → ℕ) where
  nBestSeenHeight : UInt32
  mapMemPoolTxs : AList fun _ : Uint256 => TxStatsInfo buckets
  stats : (d : DataType) → TxConfirmStats (buckets d)
  log : List LogLine

namespace CBlockPolicyEstimator

/-- The constructor; `Read` gives another `nBestSeenHeight`. -/
def init (buckets : DataType → ℕ) (nBestSeenHeight : UInt32) : CBlockPolicyEstimator buckets :=
  ⟨nBestSeenHeight, ∅, fun _ => .empty, []⟩

/-- `removeTx`. -/
def removeTx (e : CBlockPolicyEstimator buckets) (hash : Uint256) : CBlockPolicyEstimator buckets :=
  match e.mapMemPoolTxs.lookup hash with
  | none => { e with log := .notFound hash :: e.log }
  | some info =>
      match info.stats with
      | none => { e with mapMemPoolTxs := e.mapMemPoolTxs.erase hash }
      | some ⟨d, bucketIndex⟩ =>
          let (stats, lines) :=
            (e.stats d).removeTx info.blockHeight e.nBestSeenHeight bucketIndex
          { e with
            mapMemPoolTxs := e.mapMemPoolTxs.erase hash
            stats := Function.update e.stats d stats
            log := lines ++ e.log }

/-- `processTransaction`.  `mapMemPoolTxs[hash]` makes an entry if there is none. -/
def processTransaction (e : CBlockPolicyEstimator buckets) (entry : Entry buckets)
    (fCurrentEstimate : Bool) : CBlockPolicyEstimator buckets :=
  let info := (e.mapMemPoolTxs.lookup entry.hash).getD ⟨none, 0⟩
  let e := { e with mapMemPoolTxs := e.mapMemPoolTxs.insert entry.hash info }
  if info.stats.isSome then { e with log := .alreadyTracked entry.hash :: e.log }
  else if entry.height < e.nBestSeenHeight then e
  else if !fCurrentEstimate then e
  else if !entry.wasClearAtEntry then e
  else
    match entry.dataPoint with
    | none => { e with
        mapMemPoolTxs := e.mapMemPoolTxs.insert entry.hash { info with blockHeight := entry.height } }
    | some ⟨d, bucketIndex⟩ => { e with
        mapMemPoolTxs := e.mapMemPoolTxs.insert entry.hash ⟨some ⟨d, bucketIndex⟩, entry.height⟩
        stats := Function.update e.stats d ((e.stats d).newTx entry.height bucketIndex) }

/-- `processBlock`. -/
def processBlock (e : CBlockPolicyEstimator buckets) (nBlockHeight : UInt32)
    (fCurrentEstimate : Bool) : CBlockPolicyEstimator buckets :=
  if nBlockHeight ≤ e.nBestSeenHeight then e
  else if !fCurrentEstimate then { e with nBestSeenHeight := nBlockHeight }
  else { e with
    nBestSeenHeight := nBlockHeight
    stats := fun d => (e.stats d).clearCurrent nBlockHeight }

end CBlockPolicyEstimator

/-- The calls of the pool. -/
inductive Call (buckets : DataType → ℕ) where
  | processTransaction (entry : Entry buckets) (fCurrentEstimate : Bool)
  | removeTx (hash : Uint256)
  | processBlock (nBlockHeight : UInt32) (fCurrentEstimate : Bool)

namespace CBlockPolicyEstimator

def step (e : CBlockPolicyEstimator buckets) : Call buckets → CBlockPolicyEstimator buckets
  | .processTransaction entry fCurrentEstimate => e.processTransaction entry fCurrentEstimate
  | .removeTx hash => e.removeTx hash
  | .processBlock nBlockHeight fCurrentEstimate => e.processBlock nBlockHeight fCurrentEstimate

def run (e : CBlockPolicyEstimator buckets) (calls : List (Call buckets)) :
    CBlockPolicyEstimator buckets := calls.foldl step e

end CBlockPolicyEstimator

/-- The calls as they come: once `fCurrentEstimate` is true it stays so, the height of a block is
that of the last one and one more, an `int`, and a transaction that counts does not come in above
the last block. -/
def Orderly : Bool → Option UInt32 → List (Call buckets) → Prop
  | _, _, [] => True
  | live, last, .processTransaction entry fCurrentEstimate :: calls =>
      (live = true → fCurrentEstimate = true) ∧
      (fCurrentEstimate = true → ∃ height ∈ last, entry.height ≤ height) ∧
      Orderly fCurrentEstimate last calls
  | live, last, .removeTx _ :: calls => Orderly live last calls
  | live, last, .processBlock nBlockHeight fCurrentEstimate :: calls =>
      (live = true → fCurrentEstimate = true) ∧ nBlockHeight.toNat < 2147483648 ∧
      (∀ height ∈ last, nBlockHeight.toNat = height.toNat + 1) ∧
      Orderly fCurrentEstimate (some nBlockHeight) calls

/-! ## Counting in the pool -/

/-- Whether a transaction is recorded in the bucket, at one of the heights. -/
def TxStatsInfo.isIn (d : DataType) (j : Fin (buckets d)) (P : ℕ → Prop) [DecidablePred P]
    (info : TxStatsInfo buckets) : Bool :=
  decide (info.stats = some ⟨d, j⟩ ∧ P info.blockHeight.toNat)

namespace CBlockPolicyEstimator

/-- How many transactions are recorded in the bucket, at one of the heights. -/
def number (e : CBlockPolicyEstimator buckets) (d : DataType) (j : Fin (buckets d)) (P : ℕ → Prop)
    [DecidablePred P] : ℕ :=
  e.mapMemPoolTxs.entries.countP fun entry => entry.2.isIn d j P

variable {e : CBlockPolicyEstimator buckets} {d : DataType} {j : Fin (buckets d)}

theorem number_eq (e : CBlockPolicyEstimator buckets) (d : DataType) (j : Fin (buckets d))
    (P : ℕ → Prop) [DecidablePred P] :
    (e.number d j P : ℤ) = Maps.total (fun _ info => (info.isIn d j P).toInt) e.mapMemPoolTxs :=
  (Maps.total_toInt _ _).symm

/-- The number depends on what is said about the heights that there are. -/
theorem number_congr {P Q : ℕ → Prop} [DecidablePred P] [DecidablePred Q]
    (h : ∀ hash info, e.mapMemPoolTxs.lookup hash = some info → info.stats = some ⟨d, j⟩ →
      (P info.blockHeight.toNat ↔ Q info.blockHeight.toNat)) :
    (e.number d j P : ℤ) = e.number d j Q := by
  rw [number_eq, number_eq]
  apply Maps.total_congr
  intro hash info hlookup
  apply congrArg Bool.toInt
  apply decide_eq_decide.mpr
  exact and_congr_right (h hash info hlookup)

/-- A number that splits into two. -/
theorem number_add {P Q R : ℕ → Prop} [DecidablePred P] [DecidablePred Q] [DecidablePred R]
    (h : ∀ hash info, e.mapMemPoolTxs.lookup hash = some info → info.stats = some ⟨d, j⟩ →
      (R info.blockHeight.toNat ↔ P info.blockHeight.toNat ∨ Q info.blockHeight.toNat) ∧
      ¬ (P info.blockHeight.toNat ∧ Q info.blockHeight.toNat)) :
    (e.number d j R : ℤ) = e.number d j P + e.number d j Q := by
  rw [number_eq, number_eq, number_eq, ← Maps.total_add]
  apply Maps.total_congr
  intro hash info hlookup
  by_cases hstats : info.stats = some ⟨d, j⟩
  · obtain ⟨hor, hand⟩ := h hash info hlookup hstats
    simp only [TxStatsInfo.isIn, hstats, true_and]
    by_cases hP : P info.blockHeight.toNat
    · have hQ : ¬ Q info.blockHeight.toNat := fun hQ => hand ⟨hP, hQ⟩
      rw [decide_eq_true (hor.mpr (.inl hP)), decide_eq_true hP, decide_eq_false hQ]
      rfl
    · by_cases hQ : Q info.blockHeight.toNat
      · rw [decide_eq_true (hor.mpr (.inr hQ)), decide_eq_false hP, decide_eq_true hQ]
        rfl
      · rw [decide_eq_false (fun hR => (hor.mp hR).elim hP hQ), decide_eq_false hP,
          decide_eq_false hQ]
        rfl
  · simp only [TxStatsInfo.isIn, hstats, false_and, decide_false]
    rfl

/-- The transactions in the slots of a ring, and together. -/
theorem sum_number (P : ℕ → Prop) [DecidablePred P] :
    ∑ i : Fin maxBlockConfirms,
      (e.number d j (fun height => height % maxBlockConfirms = i.val ∧ P height) : ℤ) =
        e.number d j P := by
  simp only [number_eq]
  rw [Maps.sum_total]
  apply Maps.total_congr
  intro hash info hlookup
  rw [Finset.sum_eq_single (blockIndex info.blockHeight)]
  · simp only [TxStatsInfo.isIn, blockIndex, true_and]
  · intro i _ hne
    have hslot : ¬ info.blockHeight.toNat % maxBlockConfirms = i.val := fun hsame =>
      hne (Fin.ext hsame.symm)
    simp only [TxStatsInfo.isIn, hslot, false_and, and_false, decide_false]
    rfl
  · intro hnot
    exact absurd (Finset.mem_univ _) hnot

theorem number_pos {P : ℕ → Prop} [DecidablePred P] {hash : Uint256} {info : TxStatsInfo buckets}
    (h : e.mapMemPoolTxs.lookup hash = some info) (hin : info.isIn d j P = true) :
    0 < (e.number d j P : ℤ) := by
  have hle := Maps.le_total (f := fun _ info => (TxStatsInfo.isIn d j P info).toInt)
    (fun _ info => by cases info.isIn d j P <;> decide) h
  rw [hin, Bool.toInt_true, ← number_eq] at hle
  omega

/-- Nothing is tracked. -/
def Quiet (e : CBlockPolicyEstimator buckets) : Prop :=
  ∀ hash info, e.mapMemPoolTxs.lookup hash = some info → info.stats = none

theorem Quiet.number_eq_zero (h : e.Quiet) (P : ℕ → Prop) [DecidablePred P] :
    (e.number d j P : ℤ) = 0 := by
  rw [number_eq, ← Maps.total_zero e.mapMemPoolTxs]
  apply Maps.total_congr
  intro hash info hlookup
  simp only [TxStatsInfo.isIn, h hash info hlookup, reduceCtorEq, false_and, decide_false]
  rfl

/-! ## The counters count -/

/-- The heights of which the ring has the numbers. -/
def Recent (best height : ℕ) : Prop := best < height + maxBlockConfirms

instance (best : ℕ) : DecidablePred (Recent best) := fun height =>
  inferInstanceAs (Decidable (best < height + maxBlockConfirms))

/-- The heights before. -/
def Old (best height : ℕ) : Prop := height + maxBlockConfirms ≤ best

instance (best : ℕ) : DecidablePred (Old best) := fun height =>
  inferInstanceAs (Decidable (height + maxBlockConfirms ≤ best))

/-- The estimator after some calls: `live` is the last `fCurrentEstimate`, and `last` the height of
the last block. -/
structure Tracks (live : Bool) (last : Option UInt32) (e : CBlockPolicyEstimator buckets) : Prop where
  quiet : live = false → e.Quiet
  height : ∀ hash info, e.mapMemPoolTxs.lookup hash = some info → info.stats ≠ none →
    last = some e.nBestSeenHeight ∧ info.blockHeight.toNat ≤ e.nBestSeenHeight.toNat
  last : ∀ l ∈ last, l.toNat < 2147483648 ∧ l.toNat ≤ e.nBestSeenHeight.toNat
  unconf : ∀ d i j, (e.stats d).unconfTxs i j =
    e.number d j fun h => h % maxBlockConfirms = i.val ∧ Recent e.nBestSeenHeight.toNat h
  old : ∀ d j, (e.stats d).oldUnconfTxs j = e.number d j (Old e.nBestSeenHeight.toNat)
  log : ∀ line ∈ e.log, line.Harmless

variable {live : Bool} {last : Option UInt32}

theorem tracks_init (buckets : DataType → ℕ) (nBestSeenHeight : UInt32) :
    Tracks false none (init buckets nBestSeenHeight) where
  quiet := by
    intro _ hash info h
    cases h
  height := by
    intro hash info h
    cases h
  last := by
    intro l h
    cases h
  unconf := fun d i j => rfl
  old := fun d j => rfl
  log := by
    intro line h
    cases h

/-! ### Blocks -/

/-- When there is something tracked, the next block is the next height. -/
theorem Tracks.next (h : Tracks live last e) {nBlockHeight : UInt32}
    (hnext : ∀ height ∈ last, nBlockHeight.toNat = height.toNat + 1) {hash : Uint256}
    {info : TxStatsInfo buckets} (hlookup : e.mapMemPoolTxs.lookup hash = some info)
    (hstats : info.stats ≠ none) : nBlockHeight.toNat = e.nBestSeenHeight.toNat + 1 :=
  hnext _ (h.height hash info hlookup hstats).1

theorem Tracks.processBlock (h : Tracks live last e) (nBlockHeight : UInt32)
    (fCurrentEstimate : Bool) (hlive : live = true → fCurrentEstimate = true)
    (hint : nBlockHeight.toNat < 2147483648)
    (hnext : ∀ height ∈ last, nBlockHeight.toNat = height.toNat + 1) :
    Tracks fCurrentEstimate (some nBlockHeight) (e.processBlock nBlockHeight fCurrentEstimate) := by
  have hquiet : fCurrentEstimate = false → e.Quiet := by
    intro hf
    apply h.quiet
    cases live with
    | false => rfl
    | true => rw [hlive rfl] at hf; cases hf
  rw [CBlockPolicyEstimator.processBlock]
  by_cases hle : nBlockHeight ≤ e.nBestSeenHeight
  · rw [if_pos hle]
    rw [UInt32.le_iff_toNat_le] at hle
    refine ⟨hquiet, ?_, ?_, h.unconf, h.old, h.log⟩
    · intro hash info hlookup hstats
      have hsucc := h.next hnext hlookup hstats
      omega
    · rintro l hl
      obtain rfl := Option.some.inj hl
      exact ⟨hint, hle⟩
  · rw [if_neg hle]
    have hlast : ∀ l ∈ some nBlockHeight, l.toNat < 2147483648 ∧ l.toNat ≤ nBlockHeight.toNat := by
      rintro l hl
      obtain rfl := Option.some.inj hl
      exact ⟨hint, le_rfl⟩
    have hheight : ∀ hash info, e.mapMemPoolTxs.lookup hash = some info → info.stats ≠ none →
        some nBlockHeight = some nBlockHeight ∧
          info.blockHeight.toNat ≤ nBlockHeight.toNat := by
      intro hash info hlookup hstats
      have hsucc := h.next hnext hlookup hstats
      have hbest := (h.height hash info hlookup hstats).2
      exact ⟨rfl, by omega⟩
    cases fCurrentEstimate with
    | false =>
      refine ⟨hquiet, hheight, hlast, ?_, ?_, h.log⟩
      · intro d i j
        change (e.stats d).unconfTxs i j = e.number d j _
        rw [h.unconf, (hquiet rfl).number_eq_zero, (hquiet rfl).number_eq_zero]
      · intro d j
        change (e.stats d).oldUnconfTxs j = e.number d j _
        rw [h.old, (hquiet rfl).number_eq_zero, (hquiet rfl).number_eq_zero]
    | true =>
      refine ⟨fun hf => absurd hf (by decide), hheight, hlast, ?_, ?_, h.log⟩
      · intro d i j
        change (if i = blockIndex nBlockHeight then 0 else (e.stats d).unconfTxs i j) =
          (e.number d j fun h => h % maxBlockConfirms = i.val ∧ Recent nBlockHeight.toNat h : ℤ)
        split
        · -- no transaction is as high as the block
          next hslot =>
          subst hslot
          have hnone : (e.number d j fun _ => False : ℤ) = 0 := by
            rw [number_eq, ← Maps.total_zero e.mapMemPoolTxs]
            apply Maps.total_congr
            intro hash info _
            simp only [TxStatsInfo.isIn, and_false, decide_false]
            rfl
          rw [← hnone]
          apply number_congr
          intro hash info hlookup hstats
          have hsome : info.stats ≠ none := by rw [hstats]; exact Option.some_ne_none _
          have hsucc := h.next hnext hlookup hsome
          have hbest := (h.height hash info hlookup hsome).2
          simp only [blockIndex, Recent, maxBlockConfirms, false_iff]
          omega
        · next hslot =>
          rw [h.unconf]
          apply number_congr
          intro hash info hlookup hstats
          have hsome : info.stats ≠ none := by rw [hstats]; exact Option.some_ne_none _
          have hsucc := h.next hnext hlookup hsome
          have hne : i.val ≠ nBlockHeight.toNat % maxBlockConfirms := fun hsame =>
            hslot (Fin.ext hsame)
          simp only [Recent, maxBlockConfirms] at hne ⊢
          omega
      · intro d j
        change (e.stats d).oldUnconfTxs j + (e.stats d).unconfTxs (blockIndex nBlockHeight) j =
          (e.number d j (Old nBlockHeight.toNat) : ℤ)
        rw [h.old, h.unconf]
        symm
        apply number_add
        intro hash info hlookup hstats
        have hsome : info.stats ≠ none := by rw [hstats]; exact Option.some_ne_none _
        have hsucc := h.next hnext hlookup hsome
        have hbest := (h.height hash info hlookup hsome).2
        simp only [blockIndex, Recent, Old, maxBlockConfirms]
        omega

/-! ### Transactions that come in -/

/-- The entry that `mapMemPoolTxs[hash]` finds or makes. -/
def infoOf (e : CBlockPolicyEstimator buckets) (hash : Uint256) : TxStatsInfo buckets :=
  (e.mapMemPoolTxs.lookup hash).getD ⟨none, 0⟩

theorem isIn_untracked {info : TxStatsInfo buckets} (h : info.stats = none) (d : DataType)
    (j : Fin (buckets d)) (P : ℕ → Prop) [DecidablePred P] : info.isIn d j P = false := by
  simp only [TxStatsInfo.isIn, h, reduceCtorEq, false_and, decide_false]

theorem elim_isIn (e : CBlockPolicyEstimator buckets) (hash : Uint256) (d : DataType)
    (j : Fin (buckets d)) (P : ℕ → Prop) [DecidablePred P] :
    (e.mapMemPoolTxs.lookup hash).elim 0 (fun info => (info.isIn d j P).toInt) =
      ((e.infoOf hash).isIn d j P).toInt := by
  rw [infoOf]
  cases e.mapMemPoolTxs.lookup hash with
  | none =>
    rw [Option.getD_none, isIn_untracked rfl]
    rfl
  | some info => rfl

/-- The numbers when an entry is written. -/
theorem number_insert (e e' : CBlockPolicyEstimator buckets) (hash : Uint256)
    (info : TxStatsInfo buckets) (h : e'.mapMemPoolTxs = e.mapMemPoolTxs.insert hash info)
    (d : DataType) (j : Fin (buckets d)) (P : ℕ → Prop) [DecidablePred P] :
    (e'.number d j P : ℤ) = e.number d j P - ((e.infoOf hash).isIn d j P).toInt +
      (info.isIn d j P).toInt := by
  rw [number_eq, number_eq, h, Maps.total_insert, elim_isIn]

/-- The numbers when an entry goes. -/
theorem number_erase (e e' : CBlockPolicyEstimator buckets) (hash : Uint256)
    (h : e'.mapMemPoolTxs = e.mapMemPoolTxs.erase hash)
    (d : DataType) (j : Fin (buckets d)) (P : ℕ → Prop) [DecidablePred P] :
    (e'.number d j P : ℤ) = e.number d j P - ((e.infoOf hash).isIn d j P).toInt := by
  rw [number_eq, number_eq, h, Maps.total_erase, elim_isIn]

/-- What is tracked under a hash. -/
theorem Tracks.height_infoOf (h : Tracks live last e) {hash : Uint256}
    (hstats : (e.infoOf hash).stats ≠ none) :
    last = some e.nBestSeenHeight ∧
      (e.infoOf hash).blockHeight.toNat ≤ e.nBestSeenHeight.toNat := by
  cases hlookup : e.mapMemPoolTxs.lookup hash with
  | none =>
    rw [infoOf, hlookup, Option.getD_none] at hstats
    exact absurd rfl hstats
  | some info =>
    rw [infoOf, hlookup, Option.getD_some] at hstats ⊢
    exact h.height hash info hlookup hstats

theorem Tracks.quiet_infoOf (h : Tracks live last e) (hlive : live = false) (hash : Uint256) :
    (e.infoOf hash).stats = none := by
  rw [infoOf]
  cases hlookup : e.mapMemPoolTxs.lookup hash with
  | none => rfl
  | some info => exact h.quiet hlive hash info hlookup

/-- An entry that is written with what is tracked under its hash already. -/
theorem Tracks.touch (h : Tracks live last e) {e' : CBlockPolicyEstimator buckets} {hash : Uint256}
    {info : TxStatsInfo buckets} (hstats : info.stats = (e.infoOf hash).stats)
    (hheight : info.stats ≠ none → info.blockHeight = (e.infoOf hash).blockHeight)
    (hmap : e'.mapMemPoolTxs = e.mapMemPoolTxs.insert hash info)
    (hbest : e'.nBestSeenHeight = e.nBestSeenHeight) (hcounters : e'.stats = e.stats)
    (hlog : ∀ line ∈ e'.log, line.Harmless) : Tracks live last e' := by
  have hnumber : ∀ d j (P : ℕ → Prop) [DecidablePred P],
      (e'.number d j P : ℤ) = e.number d j P := by
    intro d j P _
    have hin : info.isIn d j P = (e.infoOf hash).isIn d j P := by
      by_cases hnone : info.stats = none
      · rw [isIn_untracked hnone, isIn_untracked (hstats ▸ hnone)]
      · rw [TxStatsInfo.isIn, TxStatsInfo.isIn, hheight hnone, hstats]
    rw [number_insert e e' hash info hmap, hin, sub_add_cancel]
  refine ⟨?_, ?_, ?_, ?_, ?_, hlog⟩
  · intro hlive hash' info' hlookup
    rw [hmap] at hlookup
    by_cases hsame : hash' = hash
    · rw [hsame, AList.lookup_insert] at hlookup
      obtain rfl := Option.some.inj hlookup
      rw [hstats]
      exact h.quiet_infoOf hlive hash
    · rw [AList.lookup_insert_ne hsame] at hlookup
      exact h.quiet hlive hash' info' hlookup
  · intro hash' info' hlookup hsome
    rw [hmap] at hlookup
    rw [hbest]
    by_cases hsame : hash' = hash
    · rw [hsame, AList.lookup_insert] at hlookup
      obtain rfl := Option.some.inj hlookup
      rw [hheight hsome]
      exact h.height_infoOf (hstats ▸ hsome)
    · rw [AList.lookup_insert_ne hsame] at hlookup
      exact h.height hash' info' hlookup hsome
  · rw [hbest]
    exact h.last
  · intro d i j
    rw [hcounters, h.unconf, hbest, hnumber]
  · intro d j
    rw [hcounters, h.old, hbest, hnumber]

/-- A transaction that is recorded. -/
theorem Tracks.record (h : Tracks live last e) {e' : CBlockPolicyEstimator buckets} {hash : Uint256}
    {height : UInt32} {d : DataType} {bucketIndex : Fin (buckets d)}
    (hnew : (e.infoOf hash).stats = none) (hlast : last = some e.nBestSeenHeight)
    (hheight : height = e.nBestSeenHeight)
    (hmap : e'.mapMemPoolTxs = e.mapMemPoolTxs.insert hash ⟨some ⟨d, bucketIndex⟩, height⟩)
    (hbest : e'.nBestSeenHeight = e.nBestSeenHeight)
    (hcounters : e'.stats = Function.update e.stats d ((e.stats d).newTx height bucketIndex))
    (hlog : e'.log = e.log) : Tracks true last e' := by
  have hnumber : ∀ d' j (P : ℕ → Prop) [DecidablePred P], (e'.number d' j P : ℤ) =
      e.number d' j P + (TxStatsInfo.isIn d' j P ⟨some ⟨d, bucketIndex⟩, height⟩).toInt := by
    intro d' j P _
    rw [number_insert e e' hash _ hmap, isIn_untracked hnew, Bool.toInt_false, sub_zero]
  refine ⟨fun hf => absurd hf (by decide), ?_, ?_, ?_, ?_, ?_⟩
  · intro hash' info' hlookup hsome
    rw [hmap] at hlookup
    rw [hbest]
    by_cases hsame : hash' = hash
    · rw [hsame, AList.lookup_insert] at hlookup
      obtain rfl := Option.some.inj hlookup
      exact ⟨hlast, by rw [hheight]⟩
    · rw [AList.lookup_insert_ne hsame] at hlookup
      exact h.height hash' info' hlookup hsome
  · rw [hbest]
    exact h.last
  · intro d' i j
    rw [hnumber, hbest, ← h.unconf, hcounters]
    by_cases hd : d' = d
    · subst hd
      simp only [Function.update_self, TxConfirmStats.newTx]
      by_cases hslot : i = blockIndex height ∧ j = bucketIndex
      · obtain ⟨rfl, rfl⟩ := hslot
        have hin : TxStatsInfo.isIn d' j (fun h => h % maxBlockConfirms = (blockIndex height).val ∧
            Recent e.nBestSeenHeight.toNat h) ⟨some ⟨d', j⟩, height⟩ = true := by
          apply decide_eq_true
          refine ⟨rfl, rfl, ?_⟩
          rw [hheight, Recent]
          exact Nat.lt_add_of_pos_right (by decide)
        rw [if_pos ⟨rfl, rfl⟩, hin, Bool.toInt_true]
      · have hin : TxStatsInfo.isIn d' j (fun h => h % maxBlockConfirms = i.val ∧
            Recent e.nBestSeenHeight.toNat h) ⟨some ⟨d', bucketIndex⟩, height⟩ = false := by
          apply decide_eq_false
          rintro ⟨hbucket, hmod, -⟩
          apply hslot
          cases hbucket
          exact ⟨Fin.ext hmod.symm, rfl⟩
        rw [if_neg hslot, hin, Bool.toInt_false, add_zero]
    · have hin : TxStatsInfo.isIn d' j (fun h => h % maxBlockConfirms = i.val ∧
          Recent e.nBestSeenHeight.toNat h) ⟨some ⟨d, bucketIndex⟩, height⟩ = false := by
        apply decide_eq_false
        rintro ⟨hbucket, -⟩
        cases hbucket
        exact hd rfl
      rw [Function.update_of_ne hd, hin, Bool.toInt_false, add_zero]
  · intro d' j
    have hin : TxStatsInfo.isIn d' j (Old e.nBestSeenHeight.toNat)
        ⟨some ⟨d, bucketIndex⟩, height⟩ = false := by
      apply decide_eq_false
      rintro ⟨-, hold⟩
      rw [hheight, Old] at hold
      exact absurd hold (Nat.not_le.mpr (Nat.lt_add_of_pos_right (by decide)))
    rw [hnumber, hbest, hin, Bool.toInt_false, add_zero, ← h.old, hcounters]
    by_cases hd : d' = d
    · subst hd
      rw [Function.update_self]
      rfl
    · rw [Function.update_of_ne hd]
  · rw [hlog]
    exact h.log

theorem Tracks.processTransaction (h : Tracks live last e) (entry : Entry buckets)
    (fCurrentEstimate : Bool) (hlive : live = true → fCurrentEstimate = true)
    (hentry : fCurrentEstimate = true → ∃ height ∈ last, entry.height ≤ height) :
    Tracks fCurrentEstimate last (e.processTransaction entry fCurrentEstimate) := by
  have htouched : Tracks live last { e with
      mapMemPoolTxs := e.mapMemPoolTxs.insert entry.hash (e.infoOf entry.hash) } :=
    h.touch rfl (fun _ => rfl) rfl rfl rfl h.log
  have hinfo : infoOf { e with
      mapMemPoolTxs := e.mapMemPoolTxs.insert entry.hash (e.infoOf entry.hash) } entry.hash =
        e.infoOf entry.hash := by
    rw [infoOf, AList.lookup_insert, Option.getD_some]
  -- in the other cases the flag may have come up, and nothing is recorded
  have hlift : ∀ {e' : CBlockPolicyEstimator buckets}, Tracks live last e' →
      Tracks fCurrentEstimate last e' := by
    intro e' h'
    refine ⟨fun hf => ?_, h'.height, h'.last, h'.unconf, h'.old, h'.log⟩
    apply h'.quiet
    cases live with
    | false => rfl
    | true =>
      rw [hlive rfl] at hf
      cases hf
  rw [CBlockPolicyEstimator.processTransaction]
  change Tracks fCurrentEstimate last (if (e.infoOf entry.hash).stats.isSome then _ else _)
  by_cases htracked : (e.infoOf entry.hash).stats.isSome = true
  · rw [if_pos htracked]
    apply hlift
    refine ⟨htouched.quiet, htouched.height, htouched.last, htouched.unconf, htouched.old, ?_⟩
    intro line hline
    rcases List.mem_cons.mp hline with rfl | hline
    · exact trivial
    · exact h.log line hline
  · rw [if_neg htracked]
    have hnew : (e.infoOf entry.hash).stats = none := Option.not_isSome_iff_eq_none.mp htracked
    split
    · exact hlift htouched
    · next hheight =>
      split
      · exact hlift htouched
      · next hflag =>
        split
        · exact hlift htouched
        · cases hpoint : entry.dataPoint with
          | none =>
            apply hlift
            have hmap : ∀ m : AList fun _ : Uint256 => TxStatsInfo buckets,
                m.insert entry.hash ⟨(e.infoOf entry.hash).stats, entry.height⟩ =
                  m.insert entry.hash ⟨(e.infoOf entry.hash).stats, entry.height⟩ := fun _ => rfl
            refine htouched.touch ?_ ?_ (hmap _) rfl rfl h.log
            · rw [hinfo]
            · intro hne
              exact absurd hnew hne
          | some point =>
            obtain ⟨d, bucketIndex⟩ := point
            have hf : fCurrentEstimate = true := by
              rwa [Bool.not_eq_true', Bool.not_eq_false] at hflag
            obtain ⟨l, hl, hle⟩ := hentry hf
            rw [UInt32.le_iff_toNat_le] at hle
            rw [UInt32.lt_iff_toNat_lt, not_lt] at hheight
            change e.nBestSeenHeight.toNat ≤ entry.height.toNat at hheight
            have hbest := (h.last l hl).2
            have heq : entry.height = e.nBestSeenHeight := UInt32.toNat_inj.mp (by omega)
            have hlast : last = some e.nBestSeenHeight := by
              rw [Option.mem_def.mp hl]
              exact congrArg some (UInt32.toNat_inj.mp (by omega))
            have hnew' := congrArg TxStatsInfo.stats hinfo
            rw [hf]
            exact htouched.record (hnew'.trans hnew) hlast heq rfl rfl rfl rfl

/-! ### Transactions that go -/

/-- The height difference, as long as a height is an `int`. -/
theorem blocksAgo_eq {entryHeight nBestSeenHeight : UInt32}
    (hle : entryHeight.toNat ≤ nBestSeenHeight.toNat) (hint : nBestSeenHeight.toNat < 2147483648) :
    TxConfirmStats.blocksAgo entryHeight nBestSeenHeight =
      (nBestSeenHeight.toNat : ℤ) - entryHeight.toNat := by
  rw [TxConfirmStats.blocksAgo]
  by_cases hzero : nBestSeenHeight = 0
  · subst hzero
    have hentry : entryHeight.toNat = 0 := Nat.le_zero.mp hle
    rw [if_pos rfl, hentry]
    rfl
  · have hsub : (nBestSeenHeight - entryHeight).toNat = nBestSeenHeight.toNat - entryHeight.toNat :=
      UInt32.toNat_sub_of_le _ _ (UInt32.le_iff_toNat_le.mpr hle)
    have hint' : 2 * (nBestSeenHeight - entryHeight).toBitVec.toNat < 2 ^ 32 := by
      change 2 * (nBestSeenHeight - entryHeight).toNat < 2 ^ 32
      omega
    rw [if_neg hzero]
    change (nBestSeenHeight - entryHeight).toBitVec.toInt = _
    rw [BitVec.toInt_eq_toNat_of_lt hint']
    change ((nBestSeenHeight - entryHeight).toNat : ℤ) = _
    omega

/-- An entry that goes, with its place in the counters. -/
theorem Tracks.erase (h : Tracks live last e) {e' : CBlockPolicyEstimator buckets} {hash : Uint256}
    (hmap : e'.mapMemPoolTxs = e.mapMemPoolTxs.erase hash)
    (hbest : e'.nBestSeenHeight = e.nBestSeenHeight)
    (hunconf : ∀ d i j, (e'.stats d).unconfTxs i j = (e.stats d).unconfTxs i j -
      ((e.infoOf hash).isIn d j fun h =>
        h % maxBlockConfirms = i.val ∧ Recent e.nBestSeenHeight.toNat h).toInt)
    (hold : ∀ d j, (e'.stats d).oldUnconfTxs j = (e.stats d).oldUnconfTxs j -
      ((e.infoOf hash).isIn d j (Old e.nBestSeenHeight.toNat)).toInt)
    (hlog : ∀ line ∈ e'.log, line.Harmless) : Tracks live last e' := by
  have hrest : ∀ {hash' : Uint256} {info' : TxStatsInfo buckets},
      e'.mapMemPoolTxs.lookup hash' = some info' →
        e.mapMemPoolTxs.lookup hash' = some info' := by
    intro hash' info' hlookup'
    rw [hmap] at hlookup'
    by_cases hsame : hash' = hash
    · rw [hsame, AList.lookup_erase] at hlookup'
      cases hlookup'
    · rwa [AList.lookup_erase_ne hsame] at hlookup'
  refine ⟨fun hl hash' info' hl' => h.quiet hl hash' info' (hrest hl'), ?_, ?_, ?_, ?_, hlog⟩
  · intro hash' info' hl' hsome
    rw [hbest]
    exact h.height hash' info' (hrest hl') hsome
  · rw [hbest]
    exact h.last
  · intro d i j
    rw [hunconf, h.unconf, hbest, number_erase e e' hash hmap]
  · intro d j
    rw [hold, h.old, hbest, number_erase e e' hash hmap]

/-- A transaction is in the counter that `TxConfirmStats::removeTx` takes it from. -/
theorem Tracks.removeTx_tracked (h : Tracks live last e) {hash : Uint256} {d : DataType}
    {bucketIndex : Fin (buckets d)} {info : TxStatsInfo buckets}
    (hlookup : e.mapMemPoolTxs.lookup hash = some info)
    (hstats : info.stats = some ⟨d, bucketIndex⟩) :
    Tracks live last { e with
      mapMemPoolTxs := e.mapMemPoolTxs.erase hash
      stats := Function.update e.stats d
        ((e.stats d).removeTx info.blockHeight e.nBestSeenHeight bucketIndex).1
      log := ((e.stats d).removeTx info.blockHeight e.nBestSeenHeight bucketIndex).2 ++ e.log } := by
  have hinfo : e.infoOf hash = info := by rw [infoOf, hlookup, Option.getD_some]
  have hsome : info.stats ≠ none := by
    rw [hstats]
    exact Option.some_ne_none _
  obtain ⟨hlast, hheight⟩ := h.height hash info hlookup hsome
  have hint := (h.last _ hlast).1
  have hago := blocksAgo_eq hheight hint
  -- an entry is only in a bucket that it is recorded in
  have hother : ∀ d' j (P : ℕ → Prop) [DecidablePred P], ¬ (d' = d ∧ HEq j bucketIndex) →
      info.isIn d' j P = false := by
    intro d' j P _ hne
    apply decide_eq_false
    rintro ⟨hbucket, -⟩
    rw [hstats] at hbucket
    cases hbucket
    exact hne ⟨rfl, HEq.rfl⟩
  by_cases hfar : (maxBlockConfirms : ℤ) ≤ TxConfirmStats.blocksAgo info.blockHeight
      e.nBestSeenHeight
  · have hOld : Old e.nBestSeenHeight.toNat info.blockHeight.toNat := by
      rw [hago] at hfar
      simp only [Old, maxBlockConfirms] at hfar ⊢
      omega
    have hin : info.isIn d bucketIndex (Old e.nBestSeenHeight.toNat) = true :=
      decide_eq_true ⟨hstats, hOld⟩
    have hpos : 0 < (e.stats d).oldUnconfTxs bucketIndex := by
      rw [h.old]
      exact number_pos hlookup hin
    have hrun : (e.stats d).removeTx info.blockHeight e.nBestSeenHeight bucketIndex =
        ({ e.stats d with oldUnconfTxs := fun j =>
            if j = bucketIndex then (e.stats d).oldUnconfTxs j - 1
            else (e.stats d).oldUnconfTxs j }, []) := by
      rw [TxConfirmStats.removeTx, if_neg (by omega), if_pos hfar, if_pos hpos]
    rw [hrun]
    refine h.erase rfl rfl ?_ ?_ h.log
    · intro d' i j
      have hnot : info.isIn d' j (fun h => h % maxBlockConfirms = i.val ∧
          Recent e.nBestSeenHeight.toNat h) = false := by
        apply decide_eq_false
        rintro ⟨-, -, hrecent⟩
        simp only [Old, Recent] at hOld hrecent
        omega
      rw [hinfo, hnot, Bool.toInt_false, sub_zero]
      by_cases hd : d' = d
      · subst hd
        simp only [Function.update_self]
      · simp only [Function.update_of_ne hd]
    · intro d' j
      rw [hinfo]
      by_cases hd : d' = d
      · subst hd
        simp only [Function.update_self]
        by_cases hj : j = bucketIndex
        · subst hj
          rw [if_pos rfl, hin, Bool.toInt_true]
        · rw [if_neg hj, hother d' j _ (fun hc => hj (eq_of_heq hc.2)), Bool.toInt_false, sub_zero]
      · simp only [Function.update_of_ne hd]
        rw [hother d' j _ (fun hc => hd hc.1), Bool.toInt_false, sub_zero]
  · have hRecent : Recent e.nBestSeenHeight.toNat info.blockHeight.toNat := by
      rw [hago] at hfar
      simp only [Recent, maxBlockConfirms] at hfar ⊢
      omega
    have hin : info.isIn d bucketIndex (fun h => h % maxBlockConfirms =
        (blockIndex info.blockHeight).val ∧ Recent e.nBestSeenHeight.toNat h) = true :=
      decide_eq_true ⟨hstats, rfl, hRecent⟩
    have hpos : 0 < (e.stats d).unconfTxs (blockIndex info.blockHeight) bucketIndex := by
      rw [h.unconf]
      exact number_pos hlookup hin
    have hrun : (e.stats d).removeTx info.blockHeight e.nBestSeenHeight bucketIndex =
        ({ e.stats d with unconfTxs := fun i j =>
            if i = blockIndex info.blockHeight ∧ j = bucketIndex then
              (e.stats d).unconfTxs i j - 1
            else (e.stats d).unconfTxs i j }, []) := by
      rw [TxConfirmStats.removeTx, if_neg (by omega), if_neg hfar, if_pos hpos]
    rw [hrun]
    refine h.erase rfl rfl ?_ ?_ h.log
    · intro d' i j
      rw [hinfo]
      by_cases hd : d' = d
      · subst hd
        simp only [Function.update_self]
        by_cases hslot : i = blockIndex info.blockHeight ∧ j = bucketIndex
        · obtain ⟨rfl, rfl⟩ := hslot
          rw [if_pos ⟨rfl, rfl⟩, hin, Bool.toInt_true]
        · have hnot : info.isIn d' j (fun h => h % maxBlockConfirms = i.val ∧
              Recent e.nBestSeenHeight.toNat h) = false := by
            apply decide_eq_false
            rintro ⟨hbucket, hmod, -⟩
            rw [hstats] at hbucket
            apply hslot
            cases hbucket
            exact ⟨Fin.ext hmod.symm, rfl⟩
          rw [if_neg hslot, hnot, Bool.toInt_false, sub_zero]
      · simp only [Function.update_of_ne hd]
        rw [hother d' j _ (fun hc => hd hc.1), Bool.toInt_false, sub_zero]
    · intro d' j
      have hnot : info.isIn d' j (Old e.nBestSeenHeight.toNat) = false := by
        apply decide_eq_false
        rintro ⟨-, hold⟩
        simp only [Old, Recent] at hold hRecent
        omega
      rw [hinfo, hnot, Bool.toInt_false, sub_zero]
      by_cases hd : d' = d
      · subst hd
        simp only [Function.update_self]
      · simp only [Function.update_of_ne hd]

theorem Tracks.removeTx (h : Tracks live last e) (hash : Uint256) :
    Tracks live last (e.removeTx hash) := by
  rw [CBlockPolicyEstimator.removeTx]
  cases hlookup : e.mapMemPoolTxs.lookup hash with
  | none =>
    refine ⟨h.quiet, h.height, h.last, h.unconf, h.old, ?_⟩
    intro line hline
    rcases List.mem_cons.mp hline with rfl | hline
    · exact trivial
    · exact h.log line hline
  | some info =>
    have hinfo : e.infoOf hash = info := by rw [infoOf, hlookup, Option.getD_some]
    obtain ⟨stats, blockHeight⟩ := info
    cases stats with
    | none =>
      refine h.erase (rfl : _ = e.mapMemPoolTxs.erase hash) rfl ?_ ?_ h.log
      · intro d i j
        rw [hinfo, isIn_untracked rfl, Bool.toInt_false, sub_zero]
      · intro d j
        rw [hinfo, isIn_untracked rfl, Bool.toInt_false, sub_zero]
    | some point =>
      obtain ⟨d, bucketIndex⟩ := point
      exact h.removeTx_tracked hlookup rfl

/-! ## Runs -/

theorem Tracks.run {calls : List (Call buckets)} (h : Tracks live last e)
    (horder : Orderly live last calls) : ∃ live' last', Tracks live' last' (e.run calls) := by
  induction calls generalizing e live last with
  | nil => exact ⟨live, last, h⟩
  | cons call calls ih =>
    cases call with
    | processTransaction entry fCurrentEstimate =>
      obtain ⟨hlive, hentry, hrest⟩ := horder
      exact ih (h.processTransaction entry fCurrentEstimate hlive hentry) hrest
    | removeTx hash => exact ih (h.removeTx hash) horder
    | processBlock nBlockHeight fCurrentEstimate =>
      obtain ⟨hlive, hint, hnext, hrest⟩ := horder
      exact ih (h.processBlock nBlockHeight fCurrentEstimate hlive hint hnext) hrest

/-- **The bookkeeping of the fee estimator.**  After every orderly run the counters of a bucket add
up to the transactions that are tracked in it, the slot of each of the last heights has the number
of those that came in at that height, and no transaction was missing where `removeTx` looked for
it.  No counter is above the number of tracked transactions; they are `int`s, which do not overflow
as long as fewer than `2 ^ 31` are tracked. -/
theorem estimator_run_spec (buckets : DataType → ℕ) (nBestSeenHeight : UInt32)
    (calls : List (Call buckets)) (horder : Orderly false none calls) :
    (∀ d j,
      ∑ i, (((init buckets nBestSeenHeight).run calls).stats d).unconfTxs i j +
        (((init buckets nBestSeenHeight).run calls).stats d).oldUnconfTxs j =
          ((init buckets nBestSeenHeight).run calls).number d j fun _ => True) ∧
    (∀ d j, ∀ height : UInt32,
      height ≤ ((init buckets nBestSeenHeight).run calls).nBestSeenHeight →
      ((init buckets nBestSeenHeight).run calls).nBestSeenHeight.toNat <
        height.toNat + maxBlockConfirms →
      (((init buckets nBestSeenHeight).run calls).stats d).unconfTxs (blockIndex height) j =
        ((init buckets nBestSeenHeight).run calls).number d j (· = height.toNat)) ∧
    (∀ d j, (∀ i, (((init buckets nBestSeenHeight).run calls).stats d).unconfTxs i j ≤
        ((init buckets nBestSeenHeight).run calls).mapMemPoolTxs.entries.length) ∧
      (((init buckets nBestSeenHeight).run calls).stats d).oldUnconfTxs j ≤
        ((init buckets nBestSeenHeight).run calls).mapMemPoolTxs.entries.length) ∧
    ∀ line ∈ ((init buckets nBestSeenHeight).run calls).log, line.Harmless := by
  obtain ⟨live, last, h⟩ := (tracks_init buckets nBestSeenHeight).run horder
  generalize (init buckets nBestSeenHeight).run calls = e at h
  have hle : ∀ d j (P : ℕ → Prop) [DecidablePred P],
      (e.number d j P : ℤ) ≤ e.mapMemPoolTxs.entries.length := fun d j P _ =>
    Int.ofNat_le.mpr List.countP_le_length
  refine ⟨?_, ?_, fun d j => ⟨fun i => ?_, ?_⟩, h.log⟩
  · intro d j
    simp only [h.unconf, h.old]
    rw [sum_number]
    symm
    apply number_add
    intro hash info _ _
    refine ⟨⟨fun _ => ?_, fun _ => trivial⟩, ?_⟩
    · exact Nat.lt_or_ge _ _
    · rintro ⟨hrecent, hold⟩
      exact absurd hold (Nat.not_le.mpr hrecent)
  · intro d j height hle hrecent
    rw [UInt32.le_iff_toNat_le] at hle
    rw [h.unconf]
    apply number_congr
    intro hash info hlookup hstats
    have hsome : info.stats ≠ none := by
      rw [hstats]
      exact Option.some_ne_none _
    have hbest := (h.height hash info hlookup hsome).2
    simp only [blockIndex, Recent, maxBlockConfirms] at hrecent ⊢
    omega
  · rw [h.unconf]
    exact hle d j _
  · rw [h.old]
    exact hle d j _

/-- Two buckets and four transactions: one goes, another one waits for so long that it is counted
with the older ones when it goes, and two are left, of which one came twice. -/
def sampleCalls : List (Call fun _ => 2) :=
  [.processBlock 100 false, .processTransaction ⟨7, 100, true, some ⟨.feeRate, 1⟩⟩ true,
    .processTransaction ⟨8, 100, true, some ⟨.priority, 0⟩⟩ true,
    .processTransaction ⟨9, 100, true, some ⟨.feeRate, 1⟩⟩ true, .processBlock 101 true,
    .processTransaction ⟨7, 101, true, some ⟨.feeRate, 0⟩⟩ true, .removeTx 8] ++
  (List.range 25).map (fun i => .processBlock (UInt32.ofNat (102 + i)) true) ++
  [.removeTx 9, .processTransaction ⟨10, 126, true, some ⟨.feeRate, 1⟩⟩ true, .removeTx 6]

theorem run_spec_sampleCalls :
    ∑ i, (((init (fun _ => 2) 0).run sampleCalls).stats .feeRate).unconfTxs i 1 +
        (((init (fun _ => 2) 0).run sampleCalls).stats .feeRate).oldUnconfTxs 1 =
      ((init (fun _ => 2) 0).run sampleCalls).number .feeRate 1 (fun _ => True) ∧
    ((init (fun _ => 2) 0).run sampleCalls).number .feeRate 1 (fun _ => True) = 2 ∧
    (((init (fun _ => 2) 0).run sampleCalls).stats .feeRate).oldUnconfTxs 1 = 1 ∧
    ∀ line ∈ ((init (fun _ => 2) 0).run sampleCalls).log, line.Harmless := by
  have horder : Orderly false none sampleCalls := by
    simp [sampleCalls, Orderly, List.range_succ]
  exact ⟨(estimator_run_spec (fun _ => 2) 0 sampleCalls horder).1 .feeRate 1, by decide +kernel,
    by decide +kernel,
    (estimator_run_spec (fun _ => 2) 0 sampleCalls horder).2.2.2⟩

end CBlockPolicyEstimator

end

end FeeEstimator
