/-
# Checking the signatures in parallel

The transactions of a block are checked in parts by calls of `checkSignaturesChunk` that run at the
same time (`libs/server/validation/BlockValidation.cpp`, `BlockValidation_p.h`).  A step is one
access of a call to the members that the calls share, or one `validateTransaction`; the calls take
their steps in any order.

A call finds out which part is its own when it starts.  The parts that nobody has yet are the
transactions up to a bound (`Accounted.transactions`), which moves down by one part with each call.
-/
import Hub.Runs
import Hub.SinglePrecision
import Mathlib.Algebra.BigOperators.Fin
import Mathlib.Order.Interval.Multiset
import Mathlib.Tactic.Abel

namespace Validation

/-! ## The model -/

/-- `calculateTxCheckChunks`: `chunks` and `itemsPerChunk`, where `hardwareConcurrency` is what
`boost::thread::hardware_concurrency()` returns, as an `int`. -/
def calculateTxCheckChunks (txCount : ℕ) (hardwareConcurrency : ℤ) : ℤ × ℕ :=
  let chunks := min (((txCount + 1) / 2 : ℕ) : ℤ) hardwareConcurrency
  (chunks, SinglePrecision.ceilDiv (SinglePrecision.ofNat txCount)
    (SinglePrecision.ofNat chunks.toNat))

/-- A call of `checkSignaturesChunk`, at the point that it has reached. -/
inductive ChunkCall (A : Type)
  /-- It is posted. -/
  | posted
  /-- `chunkToStart` is known. -/
  | assigned (chunkToStart : ℕ)
  /-- The loop over the transactions. -/
  | looping (blockValid : Bool) (txIndex txMax : ℕ) (chunkFees : A)
  /-- The fees are added to those of the block. -/
  | summed
  /-- It is the last one to finish, and goes on to call `finishUp`. -/
  | last
  | returned

/-- The members of a `BlockValidationState` that the calls share, and the calls.  What they do is
written down: the transactions that they validate, and the calls that call `finishUp`.  Amounts are
of any type that can be added. -/
structure ChunkedCheck (A : Type) (chunks : ℕ) where
  m_txChunkLeftToStart : ℤ
  m_txChunkLeftToFinish : ℤ
  m_blockFees : A
  /-- `m_validationStatus & BlockInvalid`. -/
  blockInvalid : Bool
  calls : Fin chunks → ChunkCall A
  validated : List ℕ
  finishedUp : List (Fin chunks)

namespace ChunkedCheck

variable {A : Type} [AddCommMonoid A]

section

variable {chunks : ℕ}

def setCall (s : ChunkedCheck A chunks) (k : Fin chunks) (call : ChunkCall A) :
    ChunkedCheck A chunks :=
  { s with calls := Function.update s.calls k call }

/-- The loop, at a transaction.  `validateTransaction` gives its fees, or throws; the coinbase is
skipped. -/
def loop (validateTransaction : ℕ → Option A) (s : ChunkedCheck A chunks) (k : Fin chunks)
    (txIndex txMax : ℕ) (chunkFees : A) : ChunkedCheck A chunks :=
  if txIndex > 0 then
    match validateTransaction txIndex with
    | some fees => { s.setCall k (.looping true (txIndex + 1) txMax (chunkFees + fees)) with
        validated := s.validated ++ [txIndex] }
    | none => { s.setCall k (.looping false txIndex txMax chunkFees) with
        validated := s.validated ++ [txIndex]
        blockInvalid := true }
  else s.setCall k (.looping true (txIndex + 1) txMax chunkFees)

/-- A call takes a step; `none` is its assertion, or a call that has returned. -/
def step (txCount : ℕ) (hardwareConcurrency : ℤ) (validateTransaction : ℕ → Option A)
    (s : ChunkedCheck A chunks) (k : Fin chunks) : Option (ChunkedCheck A chunks) :=
  match s.calls k with
  | .posted =>
      let chunkToStart := s.m_txChunkLeftToStart - 1
      if chunkToStart < 0 then none
      else some { s.setCall k (.assigned chunkToStart.toNat) with
        m_txChunkLeftToStart := chunkToStart }
  | .assigned chunkToStart =>
      let itemsPerChunk := (calculateTxCheckChunks txCount hardwareConcurrency).2
      let txIndex := itemsPerChunk * chunkToStart
      some (s.setCall k
        (.looping (!s.blockInvalid) txIndex (min (txIndex + itemsPerChunk) txCount) 0))
  | .looping blockValid txIndex txMax chunkFees =>
      if blockValid ∧ txIndex < txMax then
        some (s.loop validateTransaction k txIndex txMax chunkFees)
      else some { s.setCall k .summed with m_blockFees := s.m_blockFees + chunkFees }
  | .summed =>
      let chunksLeft := s.m_txChunkLeftToFinish - 1
      some { s.setCall k (if chunksLeft ≤ 0 then .last else .returned) with
        m_txChunkLeftToFinish := chunksLeft }
  | .last => some { s.setCall k .returned with finishedUp := s.finishedUp ++ [k] }
  | .returned => none

end

/-- The start, by `updateUtxoAndStartValidation`: a new block has no fees yet, and is not invalid.
One call is made and the others are posted; all of them may start now. -/
def start (txCount : ℕ) (hardwareConcurrency : ℤ) :
    ChunkedCheck A (calculateTxCheckChunks txCount hardwareConcurrency).1.toNat where
  m_txChunkLeftToStart := (calculateTxCheckChunks txCount hardwareConcurrency).1
  m_txChunkLeftToFinish := (calculateTxCheckChunks txCount hardwareConcurrency).1
  m_blockFees := 0
  blockInvalid := false
  calls _ := .posted
  validated := []
  finishedUp := []

/-! ## The parts -/

/-- The transactions from `a` on and before `b`, without the coinbase. -/
def txs (a b : ℕ) : Multiset ℕ := (Multiset.Ico a b).filter (0 < ·)

theorem txs_of_le {a b : ℕ} (h : b ≤ a) : txs a b = 0 := by
  rw [txs, Multiset.Ico_eq_zero_of_le h, Multiset.filter_zero]

theorem txs_add_txs {a b c : ℕ} (hab : a ≤ b) (hbc : b ≤ c) : txs a b + txs b c = txs a c := by
  rw [txs, txs, ← Multiset.filter_add, Multiset.Ico_add_Ico_eq_Ico hab hbc, txs]

theorem txs_succ (a : ℕ) : txs a (a + 1) = if 0 < a then {a} else 0 := by
  have hsingle : Multiset.Ico a (a + 1) = {a} := by
    show (Finset.Ico a (a + 1)).val = _
    rw [Nat.Ico_succ_singleton]
    rfl
  rw [txs, hsingle, Multiset.filter_singleton]
  rfl

theorem count_txs (n i : ℕ) : (txs 0 n).count i = if 1 ≤ i ∧ i < n then 1 else 0 := by
  rw [txs, Multiset.count_filter]
  have hcount : (Multiset.Ico 0 n).count i = if i < n then 1 else 0 := by
    rw [Multiset.count_eq_of_nodup Multiset.nodup_Ico]
    simp
  rw [hcount]
  split_ifs <;> first | rfl | omega

theorem txs_eq_Ico (n : ℕ) : txs 0 n = (Finset.Ico 1 n).val := by
  ext i
  rw [count_txs, Multiset.count_eq_of_nodup (Finset.nodup _)]
  simp only [Finset.mem_val, Finset.mem_Ico]

/-- A part that a call takes is the last one of those that are left. -/
theorem txs_take (items n c : ℕ) :
    txs 0 (min (items * c) n) + txs (items * c) (min (items * c + items) n) =
      txs 0 (min (items * (c + 1)) n) := by
  rw [Nat.mul_succ]
  rcases le_total (items * c) n with h | h
  · rw [min_eq_left h]
    exact txs_add_txs (Nat.zero_le _) (le_min (Nat.le_add_right _ _) h)
  · rw [min_eq_right h, min_eq_right (by omega), txs_of_le h, add_zero]

end ChunkedCheck

/-- The parts are enough: quotients of a block with less than `2 ^ 24` transactions are exact. -/
theorem calculateTxCheckChunks_spec {txCount : ℕ} {hardwareConcurrency : ℤ} (hpos : 1 ≤ txCount)
    (hlt : txCount < 2 ^ 24) (hcores : 1 ≤ hardwareConcurrency) :
    1 ≤ (calculateTxCheckChunks txCount hardwareConcurrency).1 ∧
      txCount ≤ (calculateTxCheckChunks txCount hardwareConcurrency).2 *
        (calculateTxCheckChunks txCount hardwareConcurrency).1.toNat := by
  unfold calculateTxCheckChunks
  set chunks := min (((txCount + 1) / 2 : ℕ) : ℤ) hardwareConcurrency with hchunks
  have hone : 1 ≤ chunks := le_min (by omega) hcores
  have hle : chunks ≤ ((txCount + 1) / 2 : ℕ) := min_le_left _ _
  refine ⟨hone, ?_⟩
  have hb : SinglePrecision.ofNat chunks.toNat = chunks.toNat := by
    rw [SinglePrecision.ofNat, if_pos (by omega)]
  dsimp only
  rw [hb, SinglePrecision.ceilDiv_of_lt (by omega) (by omega) hlt]
  have hdiv := Nat.lt_div_mul_add (a := txCount + (chunks.toNat - 1)) (b := chunks.toNat) (by omega)
  omega


/-! ## What the calls have -/

namespace ChunkCall

variable {A : Type} [AddCommMonoid A]

/-- Calls that have not started. -/
def toStart : ChunkCall A → ℕ
  | .posted => 1
  | _ => 0

/-- Calls that have not finished. -/
def toFinish : ChunkCall A → ℕ
  | .last | .returned => 0
  | _ => 1

/-- Calls that are about to call `finishUp`. -/
def toFinishUp : ChunkCall A → ℕ
  | .last => 1
  | _ => 0

/-- Fees that are not yet added. -/
def fees : ChunkCall A → A
  | .looping _ _ _ chunkFees => chunkFees
  | _ => 0

/-- Transactions that a call has still to validate. -/
def rest (items n : ℕ) : ChunkCall A → Multiset ℕ
  | .assigned c => ChunkedCheck.txs (items * c) (min (items * c + items) n)
  | .looping _ txIndex txMax _ => ChunkedCheck.txs txIndex txMax
  | _ => 0

/-- A bound for the steps that are left. -/
def stepsLeft (items n : ℕ) : ChunkCall A → ℕ
  | .posted => 5
  | .assigned c => 4 + (min (items * c + items) n - items * c)
  | .looping _ txIndex txMax _ => 3 + (txMax - txIndex)
  | .summed => 2
  | .last => 1
  | .returned => 0

/-- The loop has not failed, and stays within the block. -/
def Fine (n : ℕ) : ChunkCall A → Prop
  | .looping blockValid _ txMax _ => blockValid = true ∧ txMax ≤ n
  | _ => True

end ChunkCall

namespace ChunkedCheck

variable {A : Type} {chunks : ℕ}

/-- A sum over all calls, and what becomes of it when one of them takes a step. -/
theorem sum_split {M : Type} [AddCommMonoid M] (f : ChunkCall A → M) (calls : Fin chunks → ChunkCall A)
    (k : Fin chunks) : ∃ r, ∑ j, f (calls j) = f (calls k) + r ∧
      ∀ call, ∑ j, f (Function.update calls k call j) = f call + r := by
  refine ⟨∑ j ∈ Finset.univ.erase k, f (calls j), ?_, fun call => ?_⟩
  · exact (Finset.add_sum_erase _ _ (Finset.mem_univ k)).symm
  · rw [← Finset.add_sum_erase _ _ (Finset.mem_univ k), Function.update_self]
    congr 1
    refine Finset.sum_congr rfl fun j hj => ?_
    rw [Function.update_of_ne (Finset.ne_of_mem_erase hj)]

variable [AddCommMonoid A]

/-- The books are kept, as long as no transaction fails. -/
structure Accounted (items n : ℕ) (fees : ℕ → A) (s : ChunkedCheck A chunks) : Prop where
  valid : s.blockInvalid = false
  fine : ∀ k, (s.calls k).Fine n
  toStart : s.m_txChunkLeftToStart = (∑ k, (s.calls k).toStart : ℕ)
  toFinish : s.m_txChunkLeftToFinish = (∑ k, (s.calls k).toFinish : ℕ)
  toFinishUp : (∑ k, (s.calls k).toFinishUp) + s.finishedUp.length =
    if s.m_txChunkLeftToFinish ≤ 0 then 1 else 0
  blockFees : s.m_blockFees + ∑ k, (s.calls k).fees = (s.validated.map fees).sum
  transactions : (s.validated : Multiset ℕ) + ∑ k, (s.calls k).rest items n +
    txs 0 (min (items * s.m_txChunkLeftToStart.toNat) n) = txs 0 n

/-- The steps that are left, at most. -/
def stepsLeft (items n : ℕ) (s : ChunkedCheck A chunks) : ℕ :=
  ∑ k, (s.calls k).stepsLeft items n + min (items * s.m_txChunkLeftToStart.toNat) n

section

variable {items n : ℕ} {fees : ℕ → A} {s : ChunkedCheck A chunks} {k : Fin chunks}

theorem Accounted.fine_update {call : ChunkCall A} (h : s.Accounted items n fees) (hcall : call.Fine n)
    (j : Fin chunks) : (Function.update s.calls k call j).Fine n := by
  by_cases hj : j = k
  · rw [hj, Function.update_self]
    exact hcall
  · rw [Function.update_of_ne hj]
    exact h.fine j

/-- The books are kept when the call `k` takes a step from `call` to `call'`, if they are for these
two. -/
theorem Accounted.move {s' : ChunkedCheck A chunks} {call call' : ChunkCall A}
    (h : s.Accounted items n fees) (hk : s.calls k = call)
    (hcalls : s'.calls = Function.update s.calls k call')
    (hvalid : s'.blockInvalid = s.blockInvalid) (hfine : call'.Fine n)
    (hstart : s'.m_txChunkLeftToStart + call.toStart = s.m_txChunkLeftToStart + call'.toStart)
    (hfinish : s'.m_txChunkLeftToFinish + call.toFinish = s.m_txChunkLeftToFinish + call'.toFinish)
    (hfinishUp : ∀ r, (call.toFinishUp + r) + s.finishedUp.length =
        (if s.m_txChunkLeftToFinish ≤ 0 then 1 else 0) →
      (call'.toFinishUp + r) + s'.finishedUp.length =
        if s'.m_txChunkLeftToFinish ≤ 0 then 1 else 0)
    (hfees : ∀ r, s.m_blockFees + (call.fees + r) = (s.validated.map fees).sum →
      s'.m_blockFees + (call'.fees + r) = (s'.validated.map fees).sum)
    (htxs : ∀ r, (s.validated : Multiset ℕ) + (call.rest items n + r) +
        txs 0 (min (items * s.m_txChunkLeftToStart.toNat) n) = txs 0 n →
      (s'.validated : Multiset ℕ) + (call'.rest items n + r) +
        txs 0 (min (items * s'.m_txChunkLeftToStart.toNat) n) = txs 0 n) :
    s'.Accounted items n fees := by
  obtain ⟨a, ha, ha'⟩ := sum_split ChunkCall.toStart s.calls k
  obtain ⟨b, hb, hb'⟩ := sum_split ChunkCall.toFinish s.calls k
  obtain ⟨c, hc, hc'⟩ := sum_split ChunkCall.toFinishUp s.calls k
  obtain ⟨d, hd, hd'⟩ := sum_split ChunkCall.fees s.calls k
  obtain ⟨e, he, he'⟩ := sum_split (ChunkCall.rest items n) s.calls k
  subst hk
  have h₁ := h.toStart
  have h₂ := h.toFinish
  constructor
  · rw [hvalid]
    exact h.valid
  · rw [hcalls]
    exact h.fine_update hfine
  · rw [ha] at h₁
    rw [hcalls, ha']
    push_cast at h₁ ⊢
    omega
  · rw [hb] at h₂
    rw [hcalls, hb']
    push_cast at h₂ ⊢
    omega
  · rw [hcalls, hc']
    apply hfinishUp
    rw [← hc]
    exact h.toFinishUp
  · rw [hcalls, hd']
    apply hfees
    rw [← hd]
    exact h.blockFees
  · rw [hcalls, he']
    apply htxs
    rw [← he]
    exact h.transactions

/-- The count of the calls that have not started is known. -/
theorem Accounted.pos_toStart (h : s.Accounted items n fees) (hk : s.calls k = .posted) :
    0 < s.m_txChunkLeftToStart := by
  obtain ⟨r, hr, -⟩ := sum_split ChunkCall.toStart s.calls k
  rw [h.toStart, hr, hk]
  push_cast
  have hone : ((ChunkCall.posted : ChunkCall A).toStart : ℤ) = 1 := rfl
  omega

omit [AddCommMonoid A] in
/-- A step of a call leaves less to do, if the call and the parts that are left do. -/
theorem stepsLeft_move {s' : ChunkedCheck A chunks} {call call' : ChunkCall A} (hk : s.calls k = call)
    (hcalls : s'.calls = Function.update s.calls k call')
    (hlt : call'.stepsLeft items n + min (items * s'.m_txChunkLeftToStart.toNat) n <
      call.stepsLeft items n + min (items * s.m_txChunkLeftToStart.toNat) n) :
    s'.stepsLeft items n < s.stepsLeft items n := by
  obtain ⟨a, ha, ha'⟩ := sum_split (ChunkCall.stepsLeft items n) s.calls k
  rw [stepsLeft, stepsLeft, hcalls, ha, ha', hk]
  omega

/-! ### The steps -/

/-- A call that starts takes its part from those that are left. -/
theorem Accounted.assigned (h : s.Accounted items n fees) (hk : s.calls k = .posted) :
    Accounted items n fees { s.setCall k (.assigned (s.m_txChunkLeftToStart - 1).toNat) with
      m_txChunkLeftToStart := s.m_txChunkLeftToStart - 1 } := by
  have hpos := h.pos_toStart hk
  refine h.move hk rfl rfl trivial ?_ rfl (fun r hr => hr) (fun r hr => hr) (fun r hr => ?_)
  · show s.m_txChunkLeftToStart - 1 + 1 = s.m_txChunkLeftToStart + 0
    omega
  · show (s.validated : Multiset ℕ) + (txs _ _ + r) + _ = _
    have htake := txs_take items n (s.m_txChunkLeftToStart - 1).toNat
    rw [show (s.m_txChunkLeftToStart - 1).toNat + 1 = s.m_txChunkLeftToStart.toNat from by omega]
      at htake
    rw [← hr, ← htake]
    show _ = (s.validated : Multiset ℕ) + (0 + r) + _
    abel

theorem Accounted.looping (h : s.Accounted items n fees) {c : ℕ} (hk : s.calls k = .assigned c) :
    Accounted items n fees (s.setCall k
      (.looping (!s.blockInvalid) (items * c) (min (items * c + items) n) 0)) := by
  refine h.move hk rfl rfl ⟨?_, min_le_right _ _⟩ rfl rfl (fun r hr => hr) (fun r hr => hr)
    (fun r hr => hr)
  rw [h.valid]
  rfl

theorem Accounted.loop {validateTransaction : ℕ → Option A} (h : s.Accounted items n fees)
    (hvalidate : ∀ i, 1 ≤ i → i < n → validateTransaction i = some (fees i)) {txIndex txMax : ℕ}
    {chunkFees : A} (hk : s.calls k = .looping true txIndex txMax chunkFees) (hlt : txIndex < txMax) :
    Accounted items n fees (s.loop validateTransaction k txIndex txMax chunkFees) := by
  have hmax : txMax ≤ n := by
    have hfine := h.fine k
    rw [hk] at hfine
    exact hfine.2
  have hsplit := txs_add_txs (Nat.le_succ txIndex) hlt
  rw [Nat.succ_eq_add_one, txs_succ] at hsplit
  rw [ChunkedCheck.loop]
  by_cases hpos : txIndex > 0
  · rw [if_pos hpos, hvalidate txIndex hpos (by omega)]
    rw [if_pos hpos] at hsplit
    refine h.move hk rfl rfl ⟨rfl, hmax⟩ rfl rfl (fun r hr => hr) (fun r hr => ?_) (fun r hr => ?_)
    · show s.m_blockFees + (chunkFees + fees txIndex + r) = _
      rw [List.map_append, List.sum_append, ← hr]
      simp only [ChunkCall.fees, List.map_cons, List.map_nil, List.sum_cons, List.sum_nil]
      abel
    · rw [← hr]
      show ((s.validated ++ [txIndex] : List ℕ) : Multiset ℕ) + (txs (txIndex + 1) txMax + r) + _ =
        (s.validated : Multiset ℕ) + (txs txIndex txMax + r) + _
      rw [← hsplit, ← Multiset.coe_add]
      show (s.validated : Multiset ℕ) + {txIndex} + _ + _ = _
      abel
  · rw [if_neg hpos]
    rw [if_neg hpos, zero_add] at hsplit
    refine h.move hk rfl rfl ⟨rfl, hmax⟩ rfl rfl (fun r hr => hr) (fun r hr => hr) (fun r hr => ?_)
    rw [← hr]
    show _ + (txs (txIndex + 1) txMax + r) + _ = _ + (txs txIndex txMax + r) + _
    rw [hsplit]
    rfl

/-- At the end of its part a call adds its fees to those of the block. -/
theorem Accounted.summed (h : s.Accounted items n fees) {txIndex txMax : ℕ} {chunkFees : A}
    (hk : s.calls k = .looping true txIndex txMax chunkFees) (hge : ¬ txIndex < txMax) :
    Accounted items n fees { s.setCall k .summed with m_blockFees := s.m_blockFees + chunkFees } := by
  refine h.move hk rfl rfl trivial rfl rfl (fun r hr => hr) (fun r hr => ?_) (fun r hr => ?_)
  · refine Eq.trans ?_ hr
    show s.m_blockFees + chunkFees + (0 + r) = s.m_blockFees + (chunkFees + r)
    abel
  · rw [← hr]
    show _ + (0 + r) + _ = _ + (txs txIndex txMax + r) + _
    rw [txs_of_le (Nat.le_of_not_lt hge)]
    rfl

/-- The last call to finish knows that it is the last. -/
theorem Accounted.finish (h : s.Accounted items n fees) (hk : s.calls k = .summed) :
    Accounted items n fees
      { s.setCall k (if s.m_txChunkLeftToFinish - 1 ≤ 0 then .last else .returned) with
        m_txChunkLeftToFinish := s.m_txChunkLeftToFinish - 1 } := by
  have hpos : 0 < s.m_txChunkLeftToFinish := by
    obtain ⟨r, hr, -⟩ := sum_split ChunkCall.toFinish s.calls k
    rw [h.toFinish, hr, hk]
    push_cast
    have hone : ((ChunkCall.summed : ChunkCall A).toFinish : ℤ) = 1 := rfl
    omega
  by_cases hlast : s.m_txChunkLeftToFinish - 1 ≤ 0
  · rw [if_pos hlast]
    refine h.move hk rfl rfl trivial rfl ?_ (fun r hr => ?_) (fun r hr => hr) (fun r hr => hr)
    · show s.m_txChunkLeftToFinish - 1 + 1 = s.m_txChunkLeftToFinish + 0
      omega
    · rw [if_neg (by omega)] at hr
      show 1 + r + s.finishedUp.length = if s.m_txChunkLeftToFinish - 1 ≤ 0 then 1 else 0
      rw [if_pos hlast]
      simp only [ChunkCall.toFinishUp] at hr
      omega
  · rw [if_neg hlast]
    refine h.move hk rfl rfl trivial rfl ?_ (fun r hr => ?_) (fun r hr => hr) (fun r hr => hr)
    · show s.m_txChunkLeftToFinish - 1 + 1 = s.m_txChunkLeftToFinish + 0
      omega
    · rw [if_neg (by omega)] at hr
      show 0 + r + s.finishedUp.length = if s.m_txChunkLeftToFinish - 1 ≤ 0 then 1 else 0
      rw [if_neg hlast]
      exact hr

theorem Accounted.finishUp (h : s.Accounted items n fees) (hk : s.calls k = .last) :
    Accounted items n fees
      { s.setCall k .returned with finishedUp := s.finishedUp ++ [k] } := by
  refine h.move hk rfl rfl trivial rfl rfl (fun r hr => ?_) (fun r hr => hr) (fun r hr => hr)
  refine Eq.trans ?_ hr
  show 0 + r + (s.finishedUp ++ [k]).length = 1 + r + s.finishedUp.length
  rw [List.length_append, List.length_singleton]
  omega

/-- **One step.**  A call that has not returned can go on, and the books are kept. -/
theorem Accounted.step {txCount : ℕ} {hardwareConcurrency : ℤ} {validateTransaction : ℕ → Option A}
    (h : s.Accounted (calculateTxCheckChunks txCount hardwareConcurrency).2 txCount fees)
    (hvalidate : ∀ i, 1 ≤ i → i < txCount → validateTransaction i = some (fees i))
    (hk : s.calls k ≠ .returned) :
    ∃ s', s.step txCount hardwareConcurrency validateTransaction k = some s' ∧
      s'.Accounted (calculateTxCheckChunks txCount hardwareConcurrency).2 txCount fees ∧
      s'.stepsLeft (calculateTxCheckChunks txCount hardwareConcurrency).2 txCount <
        s.stepsLeft (calculateTxCheckChunks txCount hardwareConcurrency).2 txCount := by
  unfold ChunkedCheck.step
  cases hcall : s.calls k with
  | posted =>
    have hpos := h.pos_toStart hcall
    refine ⟨_, if_neg (by omega), h.assigned hcall, stepsLeft_move hcall rfl ?_⟩
    have hsucc : s.m_txChunkLeftToStart.toNat = (s.m_txChunkLeftToStart - 1).toNat + 1 := by omega
    rw [hsucc, Nat.mul_succ]
    show 4 + _ + min (_ * (s.m_txChunkLeftToStart - 1).toNat) _ < 5 + _
    omega
  | assigned c =>
    refine ⟨_, rfl, h.looping hcall, stepsLeft_move hcall rfl (Nat.add_lt_add_right ?_ _)⟩
    show 3 + _ < 4 + _
    omega
  | looping blockValid txIndex txMax chunkFees =>
    have hvalid : blockValid = true := by
      have hfine := h.fine k
      rw [hcall] at hfine
      exact hfine.1
    subst hvalid
    by_cases hlt : txIndex < txMax
    · refine ⟨_, if_pos ⟨rfl, hlt⟩, h.loop hvalidate hcall hlt, ?_⟩
      have hless : 3 + (txMax - (txIndex + 1)) < 3 + (txMax - txIndex) := by omega
      have hmax : txMax ≤ txCount := by
        have hfine := h.fine k
        rw [hcall] at hfine
        exact hfine.2
      rw [ChunkedCheck.loop]
      by_cases hpos : txIndex > 0
      · rw [if_pos hpos, hvalidate txIndex hpos (by omega)]
        exact stepsLeft_move hcall rfl (Nat.add_lt_add_right hless _)
      · rw [if_neg hpos]
        exact stepsLeft_move hcall rfl (Nat.add_lt_add_right hless _)
    · refine ⟨_, if_neg fun hboth => hlt hboth.2, h.summed hcall hlt,
        stepsLeft_move hcall rfl (Nat.add_lt_add_right ?_ _)⟩
      show 2 < 3 + _
      omega
  | summed =>
    refine ⟨_, rfl, h.finish hcall, stepsLeft_move hcall rfl (Nat.add_lt_add_right ?_ _)⟩
    by_cases hlast : s.m_txChunkLeftToFinish - 1 ≤ 0
    · rw [if_pos hlast]
      exact Nat.lt_succ_self 1
    · rw [if_neg hlast]
      exact Nat.two_pos
  | last =>
    exact ⟨_, rfl, h.finishUp hcall, stepsLeft_move hcall rfl (Nat.add_lt_add_right Nat.one_pos _)⟩
  | returned => exact absurd hcall hk

end

/-! ### Runs -/

section

variable {txCount : ℕ} {hardwareConcurrency : ℤ} {validateTransaction : ℕ → Option A}
variable {fees : ℕ → A}

theorem accounted_start (hpos : 1 ≤ txCount) (hlt : txCount < 2 ^ 24)
    (hcores : 1 ≤ hardwareConcurrency) :
    (start txCount hardwareConcurrency : ChunkedCheck A _).Accounted
      (calculateTxCheckChunks txCount hardwareConcurrency).2 txCount fees := by
  obtain ⟨hone, hcover⟩ := calculateTxCheckChunks_spec hpos hlt hcores
  constructor
  · rfl
  · exact fun _ => trivial
  · simp [start, ChunkCall.toStart]
    omega
  · simp [start, ChunkCall.toFinish]
    omega
  · rw [if_neg (by show ¬ (calculateTxCheckChunks txCount hardwareConcurrency).1 ≤ 0; omega)]
    simp [start, ChunkCall.toFinishUp]
  · simp [start, ChunkCall.fees]
  · simp [start, ChunkCall.rest, hcover]

theorem stepsLeft_start (items : ℕ) :
    (start txCount hardwareConcurrency : ChunkedCheck A _).stepsLeft items txCount ≤
      5 * (calculateTxCheckChunks txCount hardwareConcurrency).1.toNat + txCount := by
  have hsum : ∑ k, ((start txCount hardwareConcurrency : ChunkedCheck A _).calls k).stepsLeft items
      txCount = (calculateTxCheckChunks txCount hardwareConcurrency).1.toNat * 5 := by
    simp [start, ChunkCall.stepsLeft]
  rw [stepsLeft, hsum]
  omega

/-- The books are kept along a run, and every step counts. -/
theorem accounted_of_run
    {order : List (Fin (calculateTxCheckChunks txCount hardwareConcurrency).1.toNat)}
    {s s' : ChunkedCheck A (calculateTxCheckChunks txCount hardwareConcurrency).1.toNat}
    (hvalidate : ∀ i, 1 ≤ i → i < txCount → validateTransaction i = some (fees i))
    (h : s.Accounted (calculateTxCheckChunks txCount hardwareConcurrency).2 txCount fees)
    (hrun : order.foldlM (step txCount hardwareConcurrency validateTransaction) s = some s') :
    s'.Accounted (calculateTxCheckChunks txCount hardwareConcurrency).2 txCount fees ∧
      order.length + s'.stepsLeft (calculateTxCheckChunks txCount hardwareConcurrency).2 txCount ≤
        s.stepsLeft (calculateTxCheckChunks txCount hardwareConcurrency).2 txCount := by
  induction order generalizing s with
  | nil =>
    rw [List.foldlM_nil] at hrun
    obtain rfl := Option.some.inj hrun
    exact ⟨h, by simp⟩
  | cons k order ih =>
    rw [List.foldlM_cons] at hrun
    obtain ⟨t, ht, hrun⟩ := Option.bind_eq_some_iff.mp hrun
    have hk : s.calls k ≠ .returned := by
      intro hk
      rw [step, hk] at ht
      cases ht
    obtain ⟨t', ht', haccounted, hless⟩ := h.step hvalidate hk
    obtain rfl := Option.some.inj (ht'.symm.trans ht)
    obtain ⟨hend, hsteps⟩ := ih haccounted hrun
    refine ⟨hend, ?_⟩
    rw [List.length_cons]
    omega

section

variable {chunks items n : ℕ} {s : ChunkedCheck A chunks} {k : Fin chunks}

/-- A call that is last, or has called `finishUp`, is alone. -/
theorem Accounted.returned_of_finished (h : s.Accounted items n fees)
    (hfinished : s.m_txChunkLeftToFinish ≤ 0) {j : Fin chunks} (hj : s.calls j ≠ .last) :
    s.calls j = .returned := by
  obtain ⟨r, hr, -⟩ := sum_split ChunkCall.toFinish s.calls j
  have hcount := h.toFinish
  rw [hr] at hcount
  have hzero : (s.calls j).toFinish = 0 := by omega
  cases hcall : s.calls j with
  | last => exact absurd hcall hj
  | returned => rfl
  | posted | assigned | looping | summed =>
    rw [hcall] at hzero
    cases hzero

theorem Accounted.alone_of_last (h : s.Accounted items n fees) (hk : s.calls k = .last) :
    s.finishedUp = [] ∧ ∀ j, j ≠ k → s.calls j = .returned := by
  obtain ⟨r, hr, hr'⟩ := sum_split ChunkCall.toFinishUp s.calls k
  have hcount := h.toFinishUp
  rw [hr, hk] at hcount
  have hone : (ChunkCall.last : ChunkCall A).toFinishUp = 1 := rfl
  have hfinished : s.m_txChunkLeftToFinish ≤ 0 := by
    by_contra hnot
    rw [if_neg hnot] at hcount
    omega
  rw [if_pos hfinished] at hcount
  refine ⟨List.length_eq_zero_iff.mp (by omega), fun j hj => h.returned_of_finished hfinished ?_⟩
  -- the sum has room for one call that is last
  intro hlast
  obtain ⟨q, hq, -⟩ := sum_split ChunkCall.toFinishUp (Function.update s.calls k .returned) j
  rw [hr', Function.update_of_ne hj, hlast] at hq
  have hzero : (ChunkCall.returned : ChunkCall A).toFinishUp = 0 := rfl
  omega

theorem Accounted.returned_of_finishedUp (h : s.Accounted items n fees) (hk : k ∈ s.finishedUp)
    (j : Fin chunks) : s.calls j = .returned := by
  have hlen := List.length_pos_of_mem hk
  have hcount := h.toFinishUp
  have hfinished : s.m_txChunkLeftToFinish ≤ 0 := by
    by_contra hnot
    rw [if_neg hnot] at hcount
    omega
  refine h.returned_of_finished hfinished fun hlast => ?_
  rw [(h.alone_of_last hlast).1] at hk
  cases hk

/-- The books at the end. -/
theorem Accounted.at_end (h : s.Accounted items n fees) (hend : ∀ k, s.calls k = .returned) :
    s.finishedUp.length = 1 ∧ (s.validated : Multiset ℕ) = txs 0 n ∧
      s.m_blockFees = (s.validated.map fees).sum := by
  have hstart : s.m_txChunkLeftToStart = 0 := by
    rw [h.toStart]
    simp [hend, ChunkCall.toStart]
  have hfinish : s.m_txChunkLeftToFinish = 0 := by
    rw [h.toFinish]
    simp [hend, ChunkCall.toFinish]
  refine ⟨?_, ?_, ?_⟩
  · have hcount := h.toFinishUp
    rw [if_pos (le_of_eq hfinish)] at hcount
    simpa [hend, ChunkCall.toFinishUp] using hcount
  · have htxs := h.transactions
    rw [hstart] at htxs
    simpa [hend, ChunkCall.rest, txs_of_le] using htxs
  · simpa [hend, ChunkCall.fees] using h.blockFees

end

/-- **The calls of `checkSignaturesChunk`, in any order.**  No assertion fails, there is an end to
their steps, and at the end every transaction but the coinbase has been validated once, the fees are
added up, and the call that was the last one to finish has called `finishUp`. -/
theorem checkSignaturesChunk_runs (hpos : 1 ≤ txCount) (hlt : txCount < 2 ^ 24)
    (hcores : 1 ≤ hardwareConcurrency)
    (hvalidate : ∀ i, 1 ≤ i → i < txCount → validateTransaction i = some (fees i))
    {order : List (Fin (calculateTxCheckChunks txCount hardwareConcurrency).1.toNat)}
    {s : ChunkedCheck A (calculateTxCheckChunks txCount hardwareConcurrency).1.toNat}
    (hrun : order.foldlM (step txCount hardwareConcurrency validateTransaction)
      (start txCount hardwareConcurrency) = some s) :
    (∀ k, s.calls k = .posted → 0 ≤ s.m_txChunkLeftToStart - 1) ∧
      (∀ k, s.calls k ≠ .returned →
        (s.step txCount hardwareConcurrency validateTransaction k).isSome) ∧
      order.length ≤ 5 * (calculateTxCheckChunks txCount hardwareConcurrency).1.toNat + txCount ∧
      (∀ k, s.calls k = .last → s.finishedUp = [] ∧ ∀ j, j ≠ k → s.calls j = .returned) ∧
      (∀ k ∈ s.finishedUp, ∀ j, s.calls j = .returned) ∧
      ((∀ k, s.calls k = .returned) → s.finishedUp.length = 1 ∧
        (∀ i, s.validated.count i = if 1 ≤ i ∧ i < txCount then 1 else 0) ∧
        s.m_blockFees = ∑ i ∈ Finset.Ico 1 txCount, fees i) := by
  obtain ⟨h, hsteps⟩ := accounted_of_run hvalidate (accounted_start hpos hlt hcores) hrun
  have hless : (start txCount hardwareConcurrency : ChunkedCheck A _).stepsLeft
      (calculateTxCheckChunks txCount hardwareConcurrency).2 txCount ≤ _ := stepsLeft_start _
  refine ⟨fun k hk => ?_, fun k hk => ?_, by omega, fun k hk => h.alone_of_last hk,
    fun k hk => h.returned_of_finishedUp hk, fun hend => ?_⟩
  · have hleft := h.pos_toStart hk
    omega
  · obtain ⟨s', hs', -⟩ := h.step hvalidate hk
    rw [hs']
    rfl
  · obtain ⟨hone, htxs, hfees⟩ := h.at_end hend
    refine ⟨hone, fun i => ?_, ?_⟩
    · rw [← Multiset.coe_count, htxs, count_txs]
    · rw [hfees, ← Multiset.sum_coe, ← Multiset.map_coe, htxs, txs_eq_Ico]
      rfl

/-- Four transactions on two cores, with steps in turn. -/
theorem checkSignaturesChunk_runs_inTurn :
    ∃ s, ((List.replicate 6 (List.finRange _)).flatten ++ (List.finRange _).drop 1).foldlM
        (step 4 2 fun i => some (10 * (i : ℤ))) (start 4 2) = some s ∧
      s.finishedUp.length = 1 ∧ s.m_blockFees = ∑ i ∈ Finset.Ico (1 : ℕ) 4, 10 * (i : ℤ) := by
  refine ⟨_, rfl, ?_⟩
  have hend := (checkSignaturesChunk_runs (A := ℤ) (by decide) (by decide) (by decide)
    (fun i _ _ => rfl) (show ((List.replicate 6 (List.finRange _)).flatten ++
      (List.finRange _).drop 1).foldlM (step 4 2 fun i => some (10 * (i : ℤ))) (start 4 2) = some _
      from rfl)).2.2.2.2.2
  have hreturned := hend (Fin.forall_fin_two.mpr ⟨rfl, rfl⟩)
  exact ⟨hreturned.1, hreturned.2.2⟩

end

end ChunkedCheck

end Validation
