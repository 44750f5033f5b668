/-
# Block templates

`Mining::CreateNewBlock` (`libs/server/miner.cpp`) up to the check of the new block.  One loop takes
transactions from three queues: by priority while the part of the block for high priority is not
full, then by score, and in between the ones that waited for a parent that is in the block now.

Floating point numbers are only compared.  The priority of an entry, with the delta that was asked
for, and its place in the order by score are parameters, in linear orders.

`createNewBlock_sound` is about the result: what is selected may be in one block, in its order.
The count of signature operations is an `unsigned int` and the fees are added up in 64 bits, so that
this takes `SigOpsFit` and `FeesFit`.
-/
import Hub.LockTime
import Hub.MemPoolPackages
import Hub.Script

open LockTime

/-! ## The code -/

/-- `CFeeRate::GetFee`; the product is a `size_t`. -/
def getFee (nSatoshisPerK : ℤ) (nSize : ℕ) : ℤ :=
  let nFee := nSatoshisPerK * nSize % 2 ^ 64 / 1000
  if nFee = 0 ∧ nSatoshisPerK > 0 then nSatoshisPerK else nFee

/-- `GetBlockSubsidy`. -/
def getBlockSubsidy (nSubsidyHalvingInterval nHeight : ℕ) : ℤ :=
  let halvings := nHeight / nSubsidyHalvingInterval
  if 64 ≤ halvings then 0 else 50 * 100000000 / 2 ^ halvings

/-- `MAX_BLOCK_SIGOPS_PER_MB`. -/
def maxBlockSigopsPerMB : ℤ := 20000

/-- `Policy::blockSigOpAcceptLimit`, as the `uint64_t` that the result is stored in.  The size is
an `int32_t`. -/
def blockSigOpAcceptLimit (nBlockSize : ℤ) : ℕ :=
  let nBlockSizeMb := (1 + ((nBlockSize.bmod (2 ^ 32) - 1).tdiv 1000000)) % 2 ^ 64
  (nBlockSizeMb * maxBlockSigopsPerMB % 2 ^ 64).toNat

/-- `GetLegacySigOpCount`. -/
def getLegacySigOpCount (tx : CTransaction) : UInt32 :=
  let nSigOps := tx.vin.foldl (fun nSigOps txin =>
    nSigOps + CScript.getSigOpCount txin.scriptSig false) 0
  tx.vout.foldl (fun nSigOps txout =>
    nSigOps + CScript.getSigOpCount txout.scriptPubKey false) nSigOps

namespace Mining

/-- The settings, and what else the miner is given: the values of `-blockmaxsize`,
`-blockprioritysize` and `-blockminsize`, the rate of `minRelayTxFee`, the number of blocks between
halvings, the script and the comment of the coinbase, and how a transaction is hashed. -/
structure Settings where
  blockMaxSize : ℤ
  blockPrioritySize : ℤ
  blockMinSize : ℤ
  minRelayTxFee : ℤ
  nSubsidyHalvingInterval : ℕ
  coinbase : CScript
  coinbaseComment : List UInt8
  getHash : List CTxIn → List CTxOut → Uint256

namespace Settings

variable (c : Settings)

/-- `nBlockMaxSize`; the arguments of `std::max<uint32_t>` are converted. -/
def nBlockMaxSize : ℕ := max 1000 (c.blockMaxSize % 2 ^ 32).toNat

def nBlockPrioritySize : ℕ := min (c.blockPrioritySize % 2 ^ 32).toNat c.nBlockMaxSize

def nBlockMinSize : ℕ := min (c.blockMinSize % 2 ^ 32).toNat c.nBlockMaxSize

end Settings

/-- What the miner reads of an entry beside the members that the pool works with. -/
structure EntryView (P S : Type) where
  /-- `GetPriority` and `ApplyDeltas` -/
  priority : Uint256 → P
  allowFree : P → Bool
  /-- the place in the order of `CompareTxMemPoolEntryByScore` -/
  score : Uint256 → S
  sigOpCount : Uint256 → UInt32

/-- The block template so far: `inBlock`, in the order of insertion, and the selected part of the
vectors. -/
structure Filled where
  inBlock : SetEntries
  vtx : List CTransaction
  vTxFees : List ℤ
  vTxSigOps : List ℤ
  nBlockSize : ℕ
  nBlockSigOps : UInt32
  nFees : ℤ

/-- The variables of the loop. -/
structure Selecting (P : Type) where
  block : Filled
  /-- what is left of the index by score -/
  mi : List Uint256
  fPriorityBlock : Bool
  vecPriority : List (P × Uint256)
  waitPriMap : AList fun _ : Uint256 => P
  waitSet : SetEntries
  clearedTxs : List Uint256
  actualPriority : P
  lastFewTxs : ℕ

/-- Where a round of the loop ends. -/
inductive Exit where
  | again
  | done
  deriving DecidableEq

/-- A largest element, for the comparison `less`. -/
def largest {α : Type} (less : α → α → Bool) : α → List α → α
  | x, [] => x
  | x, y :: l => largest less (if less x y then y else x) l

/-- `pop_heap`: a largest element, and the others. -/
def popLargest {α : Type} [DecidableEq α] (less : α → α → Bool) : List α → Option (α × List α)
  | [] => none
  | x :: l => some (largest less x l, (x :: l).erase (largest less x l))

/-- `Added`. -/
def Filled.add (b : Filled) (e : CTxMemPoolEntry) (nTxSigOps : UInt32) : Filled where
  inBlock := b.inBlock ++ [e.tx.hash]
  vtx := b.vtx ++ [e.tx]
  vTxFees := b.vTxFees ++ [e.nFee]
  vTxSigOps := b.vTxSigOps ++ [(nTxSigOps.toNat : ℤ)]
  nBlockSize := b.nBlockSize + e.nTxSize
  nBlockSigOps := b.nBlockSigOps + nTxSigOps
  nFees := (b.nFees + e.nFee).bmod (2 ^ 64)

section Loop

variable {P S : Type} [LinearOrder P] [LinearOrder S] (v : EntryView P S)

/-- `ScoreCompare`. -/
def scoreCompare (a b : Uint256) : Bool := decide (v.score a < v.score b)

/-- `TxCoinAgePriorityCompare`. -/
def priorityCompare (a b : P × Uint256) : Bool :=
  if a.1 = b.1 then scoreCompare v a.2 b.2 else decide (a.1 < b.1)

/-- The condition of the loop. -/
def Selecting.more (t : Selecting P) : Bool := !t.mi.isEmpty || !t.clearedTxs.isEmpty

/-- The first part of a round: the entry to try, and whether it comes by priority. -/
def next (t : Selecting P) : Option (Uint256 × Bool × Selecting P) :=
  match t.fPriorityBlock, popLargest (priorityCompare v) t.vecPriority with
  | true, some ((actualPriority, iter), vecPriority) =>
      some (iter, true, { t with actualPriority, vecPriority })
  | _, _ =>
      match popLargest (scoreCompare v) t.clearedTxs with
      | none =>
          match t.mi with
          | [] => none
          | iter :: mi => some (iter, false, { t with mi })
      | some (iter, clearedTxs) => some (iter, false, { t with clearedTxs })

/-- An entry that waits for a parent. -/
def Selecting.wait (t : Selecting P) (iter : Uint256) (priorityTx : Bool) : Selecting P :=
  if priorityTx then
    { t with waitPriMap :=
        if iter ∈ t.waitPriMap then t.waitPriMap else t.waitPriMap.insert iter t.actualPriority }
  else { t with waitSet := t.waitSet.insert iter }

/-- A child of an entry that came into the block does not wait any more. -/
def Selecting.release (t : Selecting P) (child : Uint256) : Selecting P :=
  if t.fPriorityBlock then
    match t.waitPriMap.lookup child with
    | some priority =>
        { t with
          vecPriority := t.vecPriority ++ [(priority, child)]
          waitPriMap := t.waitPriMap.erase child }
    | none => t
  else if child ∈ t.waitSet then
    { t with clearedTxs := t.clearedTxs ++ [child], waitSet := t.waitSet.erase child }
  else t

/-- The end of the part for high priority. -/
def Selecting.leavePriority (c : Settings) (t : Selecting P) (nTxSize : ℕ) : Selecting P :=
  if t.fPriorityBlock ∧
      (c.nBlockPrioritySize ≤ t.block.nBlockSize + nTxSize ∨ !v.allowFree t.actualPriority) then
    { t with fPriorityBlock := false, waitPriMap := ∅ }
  else t

variable (s : CTxMemPool) (c : Settings) (nHeight nLockTimeCutoff : ℤ)

/-- The part of a round from the size on, for an entry that does not wait. -/
def tryEntry (e : CTxMemPoolEntry) (iter : Uint256) (priorityTx : Bool) (t : Selecting P) :
    Option (Exit × Selecting P) :=
  let nTxSize := e.nTxSize
  let t := t.leavePriority v c nTxSize
  if !priorityTx ∧ e.modifiedFee < getFee c.minRelayTxFee nTxSize
      ∧ c.nBlockMinSize ≤ t.block.nBlockSize then some (.done, t)
  else if c.nBlockMaxSize ≤ t.block.nBlockSize + nTxSize then
    if c.nBlockMaxSize - 100 < t.block.nBlockSize ∨ 50 < t.lastFewTxs then some (.done, t)
    else if c.nBlockMaxSize - 1000 < t.block.nBlockSize then
      some (.again, { t with lastFewTxs := t.lastFewTxs + 1 })
    else some (.again, t)
  else if !isFinalTx e.tx nHeight nLockTimeCutoff then some (.again, t)
  else
    let maxSigOps := blockSigOpAcceptLimit ((t.block.nBlockSize + nTxSize : ℕ) - 1000)
    let nTxSigOps := v.sigOpCount iter
    if maxSigOps ≤ (t.block.nBlockSigOps + nTxSigOps).toNat then
      if (maxSigOps + 2 ^ 64 - 2) % 2 ^ 64 < t.block.nBlockSigOps.toNat then some (.done, t)
      else some (.again, t)
    else
      (s.getMemPoolChildren iter).map fun children =>
        (.again, children.foldl Selecting.release { t with block := t.block.add e nTxSigOps })

/-- A round of the loop; `none` is a failed assertion. -/
def round (t : Selecting P) : Option (Exit × Selecting P) :=
  match next v t with
  | none => none
  | some (iter, priorityTx, t) =>
      if iter ∈ t.block.inBlock then some (.again, t)
      else
        match s.mapTx.lookup iter, s.getMemPoolParents iter with
        | some e, some parents =>
            if parents.any (· ∉ t.block.inBlock) then some (.again, t.wait iter priorityTx)
            else tryEntry v s c nHeight nLockTimeCutoff e iter priorityTx t
        | _, _ => none

/-- The loop; `none` is a failed assertion, or that `fuel` is used up. -/
def select : ℕ → Selecting P → Option (Selecting P)
  | 0, _ => none
  | fuel + 1, t =>
      if t.more then
        match round v s c nHeight nLockTimeCutoff t with
        | none => none
        | some (.done, t) => some t
        | some (.again, t) => select fuel t
      else some t

/-- The variables before the loop; `actualPriority` is `-1`. -/
def start (actualPriority : P) : Selecting P where
  block := ⟨[], [], [], [], 1000, 100, 0⟩
  mi := s.mapTx.keys.insertionSort fun a b => v.score b ≤ v.score a
  fPriorityBlock := decide (0 < c.nBlockPrioritySize)
  vecPriority :=
    if 0 < c.nBlockPrioritySize then s.mapTx.keys.map fun h => (v.priority h, h) else []
  waitPriMap := ∅
  waitSet := []
  clearedTxs := []
  actualPriority := actualPriority
  lastFewTxs := 0

end Loop

/-- `CBlockTemplate`, with the transactions of its block. -/
structure CBlockTemplate where
  vtx : List CTransaction
  vTxFees : List ℤ
  vTxSigOps : List ℤ

/-- The final coinbase transaction. -/
def coinbaseTx (c : Settings) (nHeight : ℕ) (nFees : ℤ) : CTransaction :=
  let scriptSig := CScript.pushVector
    (CScript.pushOpcode (CScript.pushInt64 [] nHeight) Opcode.op0) c.coinbaseComment
  let vin := [⟨⟨0, 0xFFFFFFFF⟩, scriptSig, 0xFFFFFFFF⟩]
  let vout := [⟨(nFees + getBlockSubsidy c.nSubsidyHalvingInterval nHeight).bmod (2 ^ 64),
    c.coinbase⟩]
  ⟨c.getHash vin vout, 1, vin, vout, 0⟩

/-- `Mining::CreateNewBlock` with the tip `pindexPrev`, up to the check of the new block.  It throws
without a script for the coinbase; `none` is a failed assertion, or that `fuel` is used up. -/
def createNewBlock {P S ι : Type} [LinearOrder P] [LinearOrder S] (v : EntryView P S)
    (s : CTxMemPool) (c : Settings) (T : BlockIndex ι) (nTime : ι → UInt32) (pindexPrev : ι)
    (actualPriority : P) (fuel : ℕ) : Except String (Option CBlockTemplate) :=
  if c.coinbase = [] then .error "Require coinbase to be set before mining"
  else
    let nHeight := T.nHeight pindexPrev + 1
    let nLockTimeCutoff := getMedianTimePast T nTime pindexPrev
    .ok <| (select v s c nHeight nLockTimeCutoff fuel (start v s c actualPriority)).map fun t =>
      let txNew := coinbaseTx c nHeight t.block.nFees
      { vtx := txNew :: t.block.vtx
        vTxFees := (-t.block.nFees).bmod (2 ^ 64) :: t.block.vTxFees
        vTxSigOps := ((getLegacySigOpCount txNew).toNat : ℤ) :: t.block.vTxSigOps }

/-! ## One round -/

section

variable {α : Type} {less : α → α → Bool}

theorem largest_mem : ∀ (x : α) (l : List α), largest less x l ∈ x :: l := by
  intro x l
  induction l generalizing x with
  | nil => exact List.mem_cons_self
  | cons y l ih =>
    rw [largest]
    rcases List.mem_cons.mp (ih (if less x y then y else x)) with h | h
    · rw [h]
      split
      · exact List.mem_cons_of_mem _ List.mem_cons_self
      · exact List.mem_cons_self
    · exact List.mem_cons_of_mem _ (List.mem_cons_of_mem _ h)

/-- What is popped was there, and the others stay. -/
theorem popLargest_eq_some [DecidableEq α] {l rest : List α} {x : α}
    (h : popLargest less l = some (x, rest)) :
    x ∈ l ∧ rest.length + 1 = l.length ∧ ∀ y ∈ rest, y ∈ l := by
  cases l with
  | nil => cases h
  | cons z l =>
    have hmem : largest less z l ∈ z :: l := largest_mem z l
    obtain ⟨rfl, rfl⟩ := Prod.mk.inj (Option.some.inj h)
    refine ⟨hmem, ?_, fun y hy => List.mem_of_mem_erase hy⟩
    rw [List.length_erase_of_mem hmem]
    rfl

theorem popLargest_eq_none [DecidableEq α] {l : List α} (h : popLargest less l = none) :
    l = [] := by
  cases l with
  | nil => rfl
  | cons z l => cases h

end

namespace Selecting

variable {P : Type} {t : Selecting P} {A : Uint256 → Prop}

/-- How many entries are in the three queues. -/
def queued (t : Selecting P) : ℕ := t.vecPriority.length + t.mi.length + t.clearedTxs.length

/-- All entries in the queues and in the waiting sets satisfy `A`. -/
structure Within (t : Selecting P) (A : Uint256 → Prop) : Prop where
  mi : ∀ h ∈ t.mi, A h
  vecPriority : ∀ x ∈ t.vecPriority, A x.2
  waitPriMap : ∀ h ∈ t.waitPriMap, A h
  waitSet : ∀ h ∈ t.waitSet, A h
  clearedTxs : ∀ h ∈ t.clearedTxs, A h

theorem Within.wait (h : t.Within A) {iter : Uint256} (hiter : A iter) (priorityTx : Bool) :
    (t.wait iter priorityTx).Within A := by
  cases priorityTx with
  | true =>
    refine ⟨h.mi, h.vecPriority, fun x hx => ?_, h.waitSet, h.clearedTxs⟩
    rw [Selecting.wait, if_pos rfl] at hx
    simp only at hx
    split at hx
    · exact h.waitPriMap x hx
    · rcases AList.mem_insert _ |>.mp hx with rfl | hx
      · exact hiter
      · exact h.waitPriMap x hx
  | false =>
    refine ⟨h.mi, h.vecPriority, h.waitPriMap, fun x hx => ?_, h.clearedTxs⟩
    rcases List.mem_insert_iff.mp hx with rfl | hx
    · exact hiter
    · exact h.waitSet x hx

theorem block_wait (t : Selecting P) (iter : Uint256) (priorityTx : Bool) :
    (t.wait iter priorityTx).block = t.block ∧ (t.wait iter priorityTx).queued = t.queued := by
  cases priorityTx with
  | true => exact ⟨rfl, rfl⟩
  | false => exact ⟨rfl, rfl⟩

theorem Within.release (h : t.Within A) (child : Uint256) : (t.release child).Within A := by
  rw [Selecting.release]
  split
  · split
    · next priority hpriority =>
      have hchild : child ∈ t.waitPriMap := AList.lookup_isSome.mp (by rw [hpriority]; rfl)
      refine ⟨h.mi, fun x hx => ?_, fun x hx => ?_, h.waitSet, h.clearedTxs⟩
      · rcases List.mem_append.mp hx with hx | hx
        · exact h.vecPriority x hx
        · obtain rfl := List.mem_singleton.mp hx
          exact h.waitPriMap child hchild
      · exact h.waitPriMap x (AList.mem_erase.mp hx).2
    · exact h
  · split
    · next hchild =>
      refine ⟨h.mi, h.vecPriority, h.waitPriMap, fun x hx => h.waitSet x (List.mem_of_mem_erase hx),
        fun x hx => ?_⟩
      rcases List.mem_append.mp hx with hx | hx
      · exact h.clearedTxs x hx
      · obtain rfl := List.mem_singleton.mp hx
        exact h.waitSet x hchild
    · exact h

theorem block_release (t : Selecting P) (child : Uint256) : (t.release child).block = t.block := by
  rw [Selecting.release]
  split
  · split
    · rfl
    · rfl
  · split
    · rfl
    · rfl

/-- All children at once. -/
theorem Within.releaseAll (h : t.Within A) (children : List Uint256) :
    (children.foldl Selecting.release t).Within A ∧
      (children.foldl Selecting.release t).block = t.block := by
  induction children generalizing t with
  | nil => exact ⟨h, rfl⟩
  | cons child children ih =>
    obtain ⟨hwithin, hblock⟩ := ih (h.release child)
    exact ⟨hwithin, hblock.trans (block_release t child)⟩

theorem Within.leavePriority {S : Type} (h : t.Within A) (v : EntryView P S) (c : Settings)
    (nTxSize : ℕ) : (t.leavePriority v c nTxSize).Within A ∧
      (t.leavePriority v c nTxSize).block = t.block ∧
      (t.leavePriority v c nTxSize).queued = t.queued := by
  rw [Selecting.leavePriority]
  split
  · exact ⟨⟨h.mi, h.vecPriority, fun x hx => absurd hx (AList.notMem_empty x), h.waitSet,
      h.clearedTxs⟩, rfl, rfl⟩
  · exact ⟨h, rfl, rfl⟩

end Selecting

section

variable {P S : Type} [LinearOrder P] [LinearOrder S] {v : EntryView P S} {t t' : Selecting P}
  {A : Uint256 → Prop}

/-- **The entry to try** was in one of the queues, and is not any more. -/
theorem next_spec (h : t.Within A) {iter : Uint256} {priorityTx : Bool}
    (hnext : next v t = some (iter, priorityTx, t')) :
    A iter ∧ t'.Within A ∧ t'.block = t.block ∧ t'.queued + 1 = t.queued := by
  have hother : ∀ r, (match popLargest (scoreCompare v) t.clearedTxs with
      | none =>
          match t.mi with
          | [] => none
          | iter :: mi => some (iter, false, { t with mi })
      | some (iter, clearedTxs) => some (iter, false, { t with clearedTxs })) = some r →
      A r.1 ∧ r.2.2.Within A ∧ r.2.2.block = t.block ∧ r.2.2.queued + 1 = t.queued := by
    intro r hr
    cases hpop : popLargest (scoreCompare v) t.clearedTxs with
    | none =>
      rw [hpop] at hr
      cases hmi : t.mi with
      | nil =>
        rw [hmi] at hr
        cases hr
      | cons x mi =>
        rw [hmi] at hr
        obtain rfl := Option.some.inj hr
        have hin : ∀ y ∈ x :: mi, A y := by
          rw [← hmi]
          exact h.mi
        refine ⟨hin x List.mem_cons_self, ⟨fun y hy => hin y (List.mem_cons_of_mem _ hy),
          h.vecPriority, h.waitPriMap, h.waitSet, h.clearedTxs⟩, rfl, ?_⟩
        simp only [Selecting.queued, hmi, List.length_cons]
        omega
    | some xl =>
      rw [hpop] at hr
      obtain rfl := Option.some.inj hr
      obtain ⟨hmem, hlen, hrest⟩ := popLargest_eq_some hpop
      refine ⟨h.clearedTxs _ hmem, ⟨h.mi, h.vecPriority, h.waitPriMap, h.waitSet,
        fun y hy => h.clearedTxs y (hrest y hy)⟩, rfl, ?_⟩
      simp only [Selecting.queued]
      omega
  rw [next] at hnext
  split at hnext
  · next priority x vecPriority _ hpop =>
    obtain ⟨rfl, rfl, rfl⟩ : x = iter ∧ true = priorityTx ∧ _ = t' := by simpa using hnext
    obtain ⟨hmem, hlen, hrest⟩ := popLargest_eq_some hpop
    refine ⟨h.vecPriority _ hmem, ⟨h.mi, fun y hy => h.vecPriority y (hrest y hy), h.waitPriMap,
      h.waitSet, h.clearedTxs⟩, rfl, ?_⟩
    simp only [Selecting.queued]
    omega
  · exact hother _ hnext

/-- While the condition of the loop holds, there is an entry to try. -/
theorem next_of_more (h : t.more = true) : ∃ r, next v t = some r := by
  rw [next]
  split
  · exact ⟨_, rfl⟩
  · cases hpop : popLargest (scoreCompare v) t.clearedTxs with
    | some xl => exact ⟨_, rfl⟩
    | none =>
      have hcleared := popLargest_eq_none hpop
      cases hmi : t.mi with
      | nil => simp [Selecting.more, hmi, hcleared] at h
      | cons x mi => exact ⟨_, rfl⟩

end

/-! ## What may be in a block -/

/-- The part of the template that `sel` makes. -/
def Filled.of {P S : Type} (v : EntryView P S) (sel : List CTxMemPoolEntry) : Filled where
  inBlock := sel.map fun e => e.tx.hash
  vtx := sel.map CTxMemPoolEntry.tx
  vTxFees := sel.map CTxMemPoolEntry.nFee
  vTxSigOps := sel.map fun e => ((v.sigOpCount e.tx.hash).toNat : ℤ)
  nBlockSize := 1000 + (sel.map CTxMemPoolEntry.nTxSize).sum
  nBlockSigOps := 100 + (sel.map fun e => v.sigOpCount e.tx.hash).sum
  nFees := (sel.map CTxMemPoolEntry.nFee).sum.bmod (2 ^ 64)

theorem Filled.of_snoc {P S : Type} (v : EntryView P S) (sel : List CTxMemPoolEntry)
    (e : CTxMemPoolEntry) :
    (Filled.of v sel).add e (v.sigOpCount e.tx.hash) = Filled.of v (sel ++ [e]) := by
  simp [Filled.of, Filled.add, Nat.add_assoc, UInt32.add_assoc]

section

variable {P S : Type} (v : EntryView P S) (s : CTxMemPool) (c : Settings)
  (nHeight nLockTimeCutoff : ℤ)

/-- `sel` is a list of different entries of the pool. -/
structure Pooled (sel : List CTxMemPoolEntry) : Prop where
  entries : ∀ e ∈ sel, s.mapTx.lookup e.tx.hash = some e
  nodup : (sel.map fun e => e.tx.hash).Nodup

/-- The signature operations of entries that are small enough for one block do not overflow. -/
def SigOpsFit : Prop :=
  ∀ sel, Pooled s sel → 1000 + (sel.map CTxMemPoolEntry.nTxSize).sum < c.nBlockMaxSize →
    100 + (sel.map fun e => (v.sigOpCount e.tx.hash).toNat).sum < 2 ^ 32

/-- The fees of entries of the pool, with the subsidy, do not overflow. -/
def FeesFit (nHeight : ℕ) : Prop :=
  ∀ sel, Pooled s sel → -2 ^ 63 < (sel.map CTxMemPoolEntry.nFee).sum ∧
    (sel.map CTxMemPoolEntry.nFee).sum + getBlockSubsidy c.nSubsidyHalvingInterval nHeight < 2 ^ 63

/-- `sel` may be in one block, in this order. -/
structure Fits (sel : List CTxMemPoolEntry) : Prop extends Pooled s sel where
  parents : ∀ l e r, sel = l ++ e :: r → ∀ p, s.SpendsFrom e.tx.hash p →
    p ∈ l.map fun e => e.tx.hash
  final : ∀ e ∈ sel, isFinalTx e.tx nHeight nLockTimeCutoff = true
  size : sel ≠ [] → 1000 + (sel.map CTxMemPoolEntry.nTxSize).sum < c.nBlockMaxSize
  sigOps : sel ≠ [] → 100 + (sel.map fun e => (v.sigOpCount e.tx.hash).toNat).sum
    < blockSigOpAcceptLimit (sel.map CTxMemPoolEntry.nTxSize).sum

end

/-! ## The loop -/

section

variable {P S : Type} {v : EntryView P S} {s : CTxMemPool} {c : Settings}
  {nHeight nLockTimeCutoff : ℤ} {sel : List CTxMemPoolEntry} {e : CTxMemPoolEntry}

theorem Fits.nil : Fits v s c nHeight nLockTimeCutoff [] where
  entries := by simp
  nodup := List.nodup_nil
  parents := by simp
  final := by simp
  size := fun h => absurd rfl h
  sigOps := fun h => absurd rfl h

theorem Pooled.snoc (h : Pooled s sel) (he : s.mapTx.lookup e.tx.hash = some e)
    (hnew : e.tx.hash ∉ sel.map fun e => e.tx.hash) : Pooled s (sel ++ [e]) where
  entries := by
    intro d hd
    rcases List.mem_append.mp hd with hd | hd
    · exact h.entries d hd
    · obtain rfl := List.mem_singleton.mp hd
      exact he
  nodup := by
    rw [List.map_append, List.map_singleton]
    refine h.nodup.append (List.nodup_singleton _) ?_
    rwa [List.disjoint_singleton]

/-- There are at most as many as there are entries in the pool. -/
theorem Pooled.length_le (h : Pooled s sel) : sel.length ≤ s.mapTx.keys.length := by
  rw [← List.length_map fun e : CTxMemPoolEntry => e.tx.hash]
  apply List.Subperm.length_le
  apply List.subperm_of_subset h.nodup
  intro x hx
  obtain ⟨e, he, rfl⟩ := List.mem_map.mp hx
  exact AList.mem_keys.mp (AList.lookup_isSome.mp (by rw [h.entries e he]; rfl))

/-- An entry more. -/
theorem Fits.snoc (h : Fits v s c nHeight nLockTimeCutoff sel)
    (hpooled : Pooled s (sel ++ [e]))
    (hparents : ∀ p, s.SpendsFrom e.tx.hash p → p ∈ sel.map fun e => e.tx.hash)
    (hfinal : isFinalTx e.tx nHeight nLockTimeCutoff = true)
    (hsize : 1000 + ((sel ++ [e]).map CTxMemPoolEntry.nTxSize).sum < c.nBlockMaxSize)
    (hsigOps : 100 + ((sel ++ [e]).map fun e => (v.sigOpCount e.tx.hash).toNat).sum
      < blockSigOpAcceptLimit ((sel ++ [e]).map CTxMemPoolEntry.nTxSize).sum) :
    Fits v s c nHeight nLockTimeCutoff (sel ++ [e]) where
  toPooled := hpooled
  parents := by
    intro l d r hsplit p hp
    -- either the last entry or one of the others
    rcases List.eq_nil_or_concat r with rfl | ⟨r', x, rfl⟩
    · obtain ⟨rfl, hd⟩ := List.append_inj' hsplit rfl
      obtain rfl := List.singleton_inj.mp hd
      exact hparents p hp
    · have hsplit' : sel ++ [e] = (l ++ d :: r') ++ [x] := by
        rw [hsplit]
        simp
      obtain ⟨hsel, -⟩ := List.append_inj' hsplit' rfl
      exact h.parents l d r' hsel p hp
  final := by
    intro d hd
    rcases List.mem_append.mp hd with hd | hd
    · exact h.final d hd
    · obtain rfl := List.mem_singleton.mp hd
      exact hfinal
  size := fun _ => hsize
  sigOps := fun _ => hsigOps

/-- The count does not overflow when the sum does not. -/
theorem toNat_sum : ∀ l : List UInt32, 100 + (l.map UInt32.toNat).sum < 2 ^ 32 →
    (100 + l.sum).toNat = 100 + (l.map UInt32.toNat).sum := by
  intro l
  induction l with
  | nil =>
    intro _
    rfl
  | cons x l ih =>
    intro h
    rw [List.map_cons, List.sum_cons] at h
    have hrest := ih (by omega)
    rw [List.map_cons, List.sum_cons, List.sum_cons, ← UInt32.add_assoc, UInt32.add_comm 100 x,
      UInt32.add_assoc, UInt32.toNat_add, hrest, Nat.mod_eq_of_lt (by omega)]
    omega

theorem SigOpsFit.toNat_nBlockSigOps (hfit : SigOpsFit v s c) (h : Pooled s sel)
    (hsize : 1000 + (sel.map CTxMemPoolEntry.nTxSize).sum < c.nBlockMaxSize) :
    (Filled.of v sel).nBlockSigOps.toNat
      = 100 + (sel.map fun e => (v.sigOpCount e.tx.hash).toNat).sum := by
  have hsum := hfit sel h hsize
  have hmap : (sel.map fun e => v.sigOpCount e.tx.hash).map UInt32.toNat
      = sel.map fun e => (v.sigOpCount e.tx.hash).toNat := by
    rw [List.map_map]
    rfl
  rw [← hmap] at hsum ⊢
  exact toNat_sum _ hsum

variable {t : Selecting P}

/-- What a round makes of a template with the entries `sel`: nothing new, and less in the queues,
or one entry more. -/
def After (v : EntryView P S) (s : CTxMemPool) (c : Settings) (nHeight nLockTimeCutoff : ℤ)
    (sel : List CTxMemPoolEntry) (n : ℕ) (t : Selecting P) : Prop :=
  t.Within (s.hasTx · = true) ∧
    ((t.block = Filled.of v sel ∧ t.queued < n) ∨
      ∃ e, Fits v s c nHeight nLockTimeCutoff (sel ++ [e]) ∧ t.block = Filled.of v (sel ++ [e]))

/-- **The checks of an entry** that does not wait. -/
theorem tryEntry_spec (hs : s.Shape) (hfit : SigOpsFit v s c)
    (hsel : Fits v s c nHeight nLockTimeCutoff sel) (hwithin : t.Within (s.hasTx · = true))
    (hblock : t.block = Filled.of v sel) {iter : Uint256} (he : s.mapTx.lookup iter = some e)
    (hnew : iter ∉ t.block.inBlock) (hparents : ∀ p, s.SpendsFrom iter p → p ∈ t.block.inBlock)
    {n : ℕ} (hqueued : t.queued < n) (priorityTx : Bool) :
    ∃ x t', tryEntry v s c nHeight nLockTimeCutoff e iter priorityTx t = some (x, t') ∧
      After v s c nHeight nLockTimeCutoff sel n t' := by
  have hash : e.tx.hash = iter := hs.next.hash iter e.tx (by rw [CTxMemPool.txAt, he]; rfl)
  subst hash
  obtain ⟨hwithin, hsame, hqueue⟩ := hwithin.leavePriority v c e.nTxSize
  rw [tryEntry]
  generalize t.leavePriority v c e.nTxSize = t₁ at hwithin hsame hqueue ⊢
  rw [← hsame] at hblock hnew hparents
  rw [← hqueue] at hqueued
  have hstay : ∀ x : Exit, ∃ x' t', some (x, t₁) = some (x', t') ∧
      After v s c nHeight nLockTimeCutoff sel n t' := by
    intro x
    exact ⟨x, t₁, rfl, hwithin, .inl ⟨hblock, hqueued⟩⟩
  dsimp only
  split_ifs with hfee hsize hfull hlast hfinal hsigOps hmany
  · exact hstay .done
  · exact hstay .done
  · exact ⟨.again, _, rfl, ⟨hwithin.mi, hwithin.vecPriority, hwithin.waitPriMap, hwithin.waitSet,
      hwithin.clearedTxs⟩, .inl ⟨hblock, hqueued⟩⟩
  · exact hstay .again
  · exact hstay .again
  · exact hstay .done
  · exact hstay .again
  · -- the entry goes into the block
    obtain ⟨children, hchildren⟩ : ∃ children, s.getMemPoolChildren e.tx.hash = some children :=
      ⟨_, CTxMemPool.getMemPoolChildren_of_hasTx hs.keys
        (CTxMemPool.hasTx_iff_lookup.mpr ⟨e, he⟩)⟩
    have hadd : Selecting.Within { t₁ with block := t₁.block.add e (v.sigOpCount e.tx.hash) }
        (s.hasTx · = true) :=
      ⟨hwithin.mi, hwithin.vecPriority, hwithin.waitPriMap, hwithin.waitSet, hwithin.clearedTxs⟩
    obtain ⟨hreleased, hreleasedBlock⟩ := hadd.releaseAll children
    rw [hchildren]
    refine ⟨.again, _, rfl, hreleased, .inr ⟨e, ?_, ?_⟩⟩
    · rw [hblock] at hnew hparents hsize hsigOps
      have hpooled := hsel.toPooled.snoc he hnew
      have hsum : ((sel ++ [e]).map CTxMemPoolEntry.nTxSize).sum
          = (sel.map CTxMemPoolEntry.nTxSize).sum + e.nTxSize := by simp
      have hsize' : 1000 + ((sel ++ [e]).map CTxMemPoolEntry.nTxSize).sum < c.nBlockMaxSize := by
        rw [hsum, ← Nat.add_assoc]
        exact Nat.lt_of_not_le hsize
      have hcount := hfit.toNat_nBlockSigOps hpooled hsize'
      rw [← Filled.of_snoc] at hcount
      refine hsel.snoc hpooled hparents (by simpa using hfinal) hsize' ?_
      rw [← hcount, hsum]
      have hlimit := Nat.lt_of_not_le hsigOps
      have hcast : (((Filled.of v sel).nBlockSize + e.nTxSize : ℕ) : ℤ) - 1000
          = (((sel.map CTxMemPoolEntry.nTxSize).sum + e.nTxSize : ℕ) : ℤ) := by
        simp only [Filled.of]
        omega
      rw [hcast] at hlimit
      exact hlimit
    · rw [hreleasedBlock]
      simp only
      rw [hblock, Filled.of_snoc]

variable [LinearOrder P] [LinearOrder S]

/-- **A round** neither fails nor leaves the template wrong. -/
theorem round_spec (hs : s.Shape) (hfit : SigOpsFit v s c)
    (hsel : Fits v s c nHeight nLockTimeCutoff sel) (hwithin : t.Within (s.hasTx · = true))
    (hblock : t.block = Filled.of v sel) (hmore : t.more = true) :
    ∃ x t', round v s c nHeight nLockTimeCutoff t = some (x, t') ∧
      After v s c nHeight nLockTimeCutoff sel t.queued t' := by
  obtain ⟨⟨iter, priorityTx, t₁⟩, hnext⟩ := next_of_more (v := v) hmore
  obtain ⟨hiter, hwithin₁, hsame, hqueued⟩ := next_spec hwithin hnext
  have hblock₁ : t₁.block = Filled.of v sel := hsame.trans hblock
  rw [round, hnext]
  simp only
  by_cases hin : iter ∈ t₁.block.inBlock
  · rw [if_pos hin]
    exact ⟨.again, t₁, rfl, hwithin₁, .inl ⟨hblock₁, by omega⟩⟩
  · rw [if_neg hin]
    obtain ⟨e, he⟩ := CTxMemPool.hasTx_iff_lookup.mp hiter
    rw [he, CTxMemPool.getMemPoolParents_of_hasTx hs.keys hiter]
    simp only
    by_cases horphan : (s.links iter).parents.any (· ∉ t₁.block.inBlock) = true
    · rw [if_pos horphan]
      obtain ⟨hkeep, hkeepQueued⟩ := Selecting.block_wait t₁ iter priorityTx
      exact ⟨.again, _, rfl, hwithin₁.wait hiter priorityTx,
        .inl ⟨hkeep.trans hblock₁, by omega⟩⟩
    · rw [if_neg horphan]
      refine tryEntry_spec hs hfit hsel hwithin₁ hblock₁ he hin ?_ (by omega) priorityTx
      intro p hp
      by_contra hout
      exact horphan (List.any_eq_true.mpr
        ⟨p, (hs.parents iter p).mpr hp, decide_eq_true hout⟩)

/-- **The loop ends**, and what it selected may be in one block.  An entry more is possible as long
as the pool has more, and without a new entry the queues get shorter. -/
theorem select_spec (hs : s.Shape) (hfit : SigOpsFit v s c) :
    ∀ (room n : ℕ) (sel : List CTxMemPoolEntry) (t : Selecting P),
      s.mapTx.keys.length - sel.length = room → t.queued = n →
      Fits v s c nHeight nLockTimeCutoff sel → t.Within (s.hasTx · = true) →
      t.block = Filled.of v sel →
      ∃ m t' sel', Fits v s c nHeight nLockTimeCutoff sel' ∧ t'.block = Filled.of v sel' ∧
        ∀ fuel, m ≤ fuel → select v s c nHeight nLockTimeCutoff fuel t = some t' := by
  intro room
  induction room using Nat.strong_induction_on with
  | _ room ihRoom =>
  intro n
  induction n using Nat.strong_induction_on with
  | _ n ihQueued =>
  intro sel t hroom hn hsel hwithin hblock
  by_cases hmore : t.more = true
  · obtain ⟨x, t', hround, hwithin', hafter⟩ := round_spec hs hfit hsel hwithin hblock hmore
    cases x with
    | done =>
      obtain ⟨sel', hsel', hblock'⟩ : ∃ sel', Fits v s c nHeight nLockTimeCutoff sel' ∧
          t'.block = Filled.of v sel' := by
        rcases hafter with ⟨hblock', -⟩ | ⟨e, hsel', hblock'⟩
        · exact ⟨sel, hsel, hblock'⟩
        · exact ⟨sel ++ [e], hsel', hblock'⟩
      refine ⟨1, t', sel', hsel', hblock', ?_⟩
      intro fuel hfuel
      obtain ⟨k, rfl⟩ := Nat.exists_eq_add_of_le' hfuel
      rw [select, if_pos hmore, hround]
    | again =>
      have hrest : ∃ m t'' sel', Fits v s c nHeight nLockTimeCutoff sel' ∧
          t''.block = Filled.of v sel' ∧
          ∀ fuel, m ≤ fuel → select v s c nHeight nLockTimeCutoff fuel t' = some t'' := by
        rcases hafter with ⟨hblock', hless⟩ | ⟨e, hsel', hblock'⟩
        · exact ihQueued t'.queued (by omega) sel t' hroom rfl hsel hwithin' hblock'
        · have hlen := hsel'.toPooled.length_le
          rw [List.length_append, List.length_singleton] at hlen
          exact ihRoom (s.mapTx.keys.length - (sel ++ [e]).length)
            (by rw [List.length_append, List.length_singleton]; omega) t'.queued (sel ++ [e]) t'
            rfl rfl hsel' hwithin' hblock'
      obtain ⟨m, t'', sel', hsel', hblock', hrun⟩ := hrest
      refine ⟨m + 1, t'', sel', hsel', hblock', ?_⟩
      intro fuel hfuel
      obtain ⟨k, rfl⟩ := Nat.exists_eq_add_of_le' (Nat.le_of_add_left_le hfuel)
      rw [select, if_pos hmore, hround]
      exact hrun k (by omega)
  · refine ⟨1, t, sel, hsel, hblock, ?_⟩
    intro fuel hfuel
    obtain ⟨k, rfl⟩ := Nat.exists_eq_add_of_le' hfuel
    rw [select, if_neg hmore]

omit [LinearOrder P] in
theorem within_start (v : EntryView P S) (s : CTxMemPool) (c : Settings) (actualPriority : P) :
    (start v s c actualPriority).Within (s.hasTx · = true) := by
  have hkey : ∀ h ∈ s.mapTx.keys, s.hasTx h = true := fun h hh => AList.lookup_isSome.mpr
    (AList.mem_keys.mpr hh)
  refine ⟨fun h hh => hkey h ((List.perm_insertionSort _ _).mem_iff.mp hh), fun x hx => ?_,
    fun h hh => absurd hh (AList.notMem_empty h), fun h hh => ?_, fun h hh => ?_⟩
  · rw [start] at hx
    simp only at hx
    split at hx
    · obtain ⟨h, hh, rfl⟩ := List.mem_map.mp hx
      exact hkey h hh
    · cases hx
  · cases hh
  · cases hh

/-- More fuel does not change the result. -/
theorem select_mono {r : Selecting P} : ∀ {fuel : ℕ} {t : Selecting P},
    select v s c nHeight nLockTimeCutoff fuel t = some r → ∀ {fuel'}, fuel ≤ fuel' →
    select v s c nHeight nLockTimeCutoff fuel' t = some r := by
  intro fuel
  induction fuel with
  | zero =>
    intro t h
    cases h
  | succ fuel ih =>
    intro t h fuel' hle
    obtain ⟨k, rfl⟩ := Nat.exists_eq_add_of_le' (Nat.le_of_add_left_le hle)
    rw [select] at h ⊢
    split at h
    · next hmore =>
      rw [if_pos hmore]
      split at h
      · cases h
      · exact h
      · exact ih h (by omega)
    · next hmore =>
      rw [if_neg hmore]
      exact h

end

section

variable {P S ι : Type} [LinearOrder P] [LinearOrder S] (v : EntryView P S) (s : CTxMemPool)
  (c : Settings) (T : BlockIndex ι) (nTime : ι → UInt32) (pindexPrev : ι) (actualPriority : P)

/-- The loop ends, and the template consists of a coinbase, which claims the subsidy and the fees,
and of entries that may be in one block in this order, with their fees and their signature
operations. -/
def SoundTemplate : Prop :=
  ∃ m sel txNew,
    Fits v s c (T.nHeight pindexPrev + 1 : ℕ) (getMedianTimePast T nTime pindexPrev) sel ∧
    txNew.isCoinBase = true ∧
    txNew.vout = [⟨getBlockSubsidy c.nSubsidyHalvingInterval (T.nHeight pindexPrev + 1)
      + (sel.map CTxMemPoolEntry.nFee).sum, c.coinbase⟩] ∧
    ∀ fuel, m ≤ fuel → createNewBlock v s c T nTime pindexPrev actualPriority fuel
      = .ok (some {
          vtx := txNew :: sel.map CTxMemPoolEntry.tx
          vTxFees := -(sel.map CTxMemPoolEntry.nFee).sum :: sel.map CTxMemPoolEntry.nFee
          vTxSigOps := ((getLegacySigOpCount txNew).toNat : ℤ)
            :: sel.map fun e => ((v.sigOpCount e.tx.hash).toNat : ℤ) })

variable {v s c}

theorem getBlockSubsidy_nonneg (nSubsidyHalvingInterval nHeight : ℕ) :
    0 ≤ getBlockSubsidy nSubsidyHalvingInterval nHeight := by
  rw [getBlockSubsidy]
  split_ifs
  · exact le_rfl
  · exact Int.ediv_nonneg (by decide) (pow_nonneg (by decide) _)

theorem bmod_eq_self {x : ℤ} (hlow : -2 ^ 63 ≤ x) (hhigh : x < 2 ^ 63) : x.bmod (2 ^ 64) = x :=
  Int.bmod_eq_of_le (by omega) (by omega)

/-- **Block templates are sound**, for every consistent pool. -/
theorem createNewBlock_sound (hs : s.Shape) (hfit : SigOpsFit v s c)
    (hfees : FeesFit s c (T.nHeight pindexPrev + 1)) (hcoinbase : c.coinbase ≠ []) :
    SoundTemplate v s c T nTime pindexPrev actualPriority := by
  obtain ⟨m, t', sel, hsel, hblock, hrun⟩ := select_spec hs hfit _ _ []
    (start v s c actualPriority) rfl rfl Fits.nil (within_start v s c actualPriority) rfl
  obtain ⟨hlow, hhigh⟩ := hfees sel hsel.toPooled
  have hsubsidy := getBlockSubsidy_nonneg c.nSubsidyHalvingInterval (T.nHeight pindexPrev + 1)
  refine ⟨m, sel, coinbaseTx c (T.nHeight pindexPrev + 1) (sel.map CTxMemPoolEntry.nFee).sum, hsel,
    rfl, ?_, fun fuel hfuel => ?_⟩
  · rw [coinbaseTx, bmod_eq_self (by omega) hhigh, Int.add_comm]
  · have hnFees : (Filled.of v sel).nFees = (sel.map CTxMemPoolEntry.nFee).sum :=
      bmod_eq_self (by omega) (by omega)
    rw [createNewBlock, if_neg hcoinbase]
    simp only
    rw [hrun fuel hfuel, Option.map_some, hblock, hnFees, bmod_eq_self (by omega) (by omega)]
    rfl

omit [LinearOrder P] [LinearOrder S] in
/-- Entries that count at most one signature operation a byte do not overflow.  An entry is only
accepted if it counts at most one for `-bytespersigop` bytes, unless this is zero. -/
theorem sigOpsFit_of_le_size
    (h : ∀ x e, s.mapTx.lookup x = some e → (v.sigOpCount x).toNat ≤ e.nTxSize) :
    SigOpsFit v s c := by
  intro sel hsel hsize
  have hle : (sel.map fun e => (v.sigOpCount e.tx.hash).toNat).sum
      ≤ (sel.map CTxMemPoolEntry.nTxSize).sum :=
    List.sum_le_sum fun e he => h e.tx.hash e (hsel.entries e he)
  have hmax : c.nBlockMaxSize < 2 ^ 32 := by
    rw [Settings.nBlockMaxSize]
    omega
  omega

omit [LinearOrder P] [LinearOrder S] in
/-- Fees that are not negative do not overflow when the pool has room for as many of the largest. -/
theorem feesFit_of_le {n : ℤ} {nHeight : ℕ} (hn : 0 ≤ n)
    (h : ∀ x e, s.mapTx.lookup x = some e → 0 ≤ e.nFee ∧ e.nFee ≤ n)
    (htotal : s.mapTx.keys.length * n + getBlockSubsidy c.nSubsidyHalvingInterval nHeight < 2 ^ 63) :
    FeesFit s c nHeight := by
  intro sel hsel
  have hall : ∀ e ∈ sel, 0 ≤ e.nFee ∧ e.nFee ≤ n := fun e he =>
    h e.tx.hash e (hsel.entries e he)
  have hpos : 0 ≤ (sel.map CTxMemPoolEntry.nFee).sum := by
    apply List.sum_nonneg
    intro x hx
    obtain ⟨e, he, rfl⟩ := List.mem_map.mp hx
    exact (hall e he).1
  have hle : (sel.map CTxMemPoolEntry.nFee).sum ≤ sel.length * n := by
    have hcard := List.sum_le_card_nsmul (sel.map CTxMemPoolEntry.nFee) n (by
      intro x hx
      obtain ⟨e, he, rfl⟩ := List.mem_map.mp hx
      exact (hall e he).2)
    rwa [List.length_map, nsmul_eq_mul] at hcard
  have hlength : (sel.length : ℤ) * n ≤ s.mapTx.keys.length * n :=
    mul_le_mul_of_nonneg_right (Int.ofNat_le.mpr hsel.length_le) hn
  omega

end

/-! ### A pool with a transaction and its child -/

open CTxMemPool

/-- The tree with the first block only. -/
def genesisTree : BlockIndex Unit where
  pprev _ := none
  nHeight _ := 0
  nChainWork _ := 1
  pskip _ := none
  height_root _ _ := rfl
  height_child _ _ h := by cases h
  skip _ _ h := by cases h

/-- The pool with `parentTx` and `childTx`. -/
def pairPool : CTxMemPool :=
  (([.insertTx (.ofTx parentTx 0 1 10 true), .insertTx (.ofTx childTx 1 1 10 false)] :
    List PoolOp).foldlM (step (fun _ => 0) ⟨1, 1, 1, 1, 1⟩ fun s => s.mapTx.keys.head?)
      (empty oneCoin)).getD (empty oneCoin)

/-- The child has the higher score. -/
def pairView (sigOpCount : Uint256 → UInt32) : EntryView ℕ ℕ :=
  ⟨BitVec.toNat, fun priority => decide (3 ≤ priority), BitVec.toNat, sigOpCount⟩

def pairSettings : Settings := ⟨8000000, 50000, 0, 0, 210000, [0x51], [], fun _ _ => 7⟩

theorem shape_pairPool : pairPool.Shape := by
  have hops : Runs.Each (step (fun _ => 0) ⟨1, 1, 1, 1, 1⟩ fun s => s.mapTx.keys.head?)
      (fun s op => op.Allowed (fun _ => 0) ⟨1, 1, 1, 1, 1⟩ (fun s => s.mapTx.keys.head?)
        sampleBody s ∧ op.Accepted 150 s) (empty oneCoin)
      [.insertTx (.ofTx parentTx 0 1 10 true), .insertTx (.ofTx childTx 1 1 10 false)] := by
    decide +kernel
  have hok : PoolOk sampleBody pairPool := by
    rw [pairPool]
    cases hrun : ([.insertTx (.ofTx parentTx 0 1 10 true), .insertTx (.ofTx childTx 1 1 10 false)] :
        List PoolOp).foldlM (step (fun _ => 0) ⟨1, 1, 1, 1, 1⟩ fun s => s.mapTx.keys.head?)
        (empty oneCoin) with
    | none => exact poolOk_empty wf_oneCoin
    | some s =>
      refine Runs.foldlM_inv_of_each (fun s op s' h hop hs => ?_) (poolOk_empty wf_oneCoin) hops
        hrun
      obtain ⟨t, ht, hpool⟩ := h.step ⟨hop.1, 150, hop.2⟩
      rwa [← Option.some.inj (ht.symm.trans hs)]
  have hg := hok.sound.graph
  exact ⟨hg.next, hg.keys, hg.parents, hg.children, hg.parents_nodup, hg.children_nodup, hg.acyclic,
    hg.size_pos, hg.delta⟩

theorem createNewBlock_sound_pairPool :
    SoundTemplate (pairView fun _ => 1) pairPool pairSettings genesisTree (fun _ => 1231006505) () 0
      ∧ ∃ txNew, (createNewBlock (pairView fun _ => 1) pairPool pairSettings genesisTree
        (fun _ => 1231006505) () 0 9).toOption.join.map CBlockTemplate.vtx
          = some [txNew, parentTx, childTx] := by
  have hfee : (pairPool.mapTx.entries.all fun entry => entry.2.nFee = 10) = true := by
    decide +kernel
  have hfees : FeesFit pairPool pairSettings 1 := by
    refine feesFit_of_le (by decide : (0 : ℤ) ≤ 10) (fun x e he => ?_) (by decide +kernel)
    have hten : e.nFee = 10 := by
      simpa using List.all_eq_true.mp hfee ⟨x, e⟩ (AList.mem_lookup_iff.mp he)
    omega
  refine ⟨createNewBlock_sound _ _ _ _ shape_pairPool (sigOpsFit_of_le_size ?_) hfees (by decide),
    coinbaseTx pairSettings 1 20, by decide +kernel⟩
  intro x e he
  exact shape_pairPool.size_pos x e he

/-- A count close to `2 ^ 32` overflows, and the entry is taken. -/
theorem not_createNewBlock_sound_overflow :
    ¬ ∀ (P S ι : Type) [LinearOrder P] [LinearOrder S] (v : EntryView P S) (s : CTxMemPool)
      (c : Settings) (T : BlockIndex ι) (nTime : ι → UInt32) (pindexPrev : ι) (actualPriority : P),
      s.Shape → c.coinbase ≠ [] → SoundTemplate v s c T nTime pindexPrev actualPriority := by
  intro h
  obtain ⟨m, sel, txNew, hsel, -, -, hrun⟩ := h ℕ ℕ Unit (pairView fun _ => 4294967246) pairPool
    pairSettings genesisTree (fun _ => 1231006505) () 0 shape_pairPool (by decide)
  have hselect : (select (pairView fun _ => 4294967246) pairPool pairSettings 1 1231006505 9
      (start (pairView fun _ => 4294967246) pairPool pairSettings 0)).map (fun t => t.block.vtx)
      = some [parentTx, childTx] := by decide +kernel
  obtain ⟨t, ht, hvtx⟩ := Option.map_eq_some_iff.mp hselect
  have hthere := hrun (m + 9) (by omega)
  have hmore : select (pairView fun _ => 4294967246) pairPool pairSettings 1 1231006505 (m + 9)
      (start (pairView fun _ => 4294967246) pairPool pairSettings 0) = some t :=
    select_mono ht (by omega)
  have hsame : txNew :: sel.map CTxMemPoolEntry.tx = coinbaseTx pairSettings 1 t.block.nFees
      :: t.block.vtx := by
    have hresult : createNewBlock (pairView fun _ => 4294967246) pairPool pairSettings genesisTree
        (fun _ => 1231006505) () 0 (m + 9) = .ok (some ⟨_, _, _⟩) :=
      (if_neg (by decide)).trans (congrArg (fun o => Except.ok (Option.map _ o)) hmore)
    rw [hresult] at hthere
    exact (CBlockTemplate.mk.inj (Option.some.inj (Except.ok.inj hthere))).1.symm
  rw [hvtx] at hsame
  obtain ⟨e₁, rest, rfl, h₁, hrest⟩ := List.map_eq_cons_iff.mp (List.cons.inj hsame).2
  obtain ⟨e₂, rest, rfl, h₂, hrest⟩ := List.map_eq_cons_iff.mp hrest
  obtain rfl := List.map_eq_nil_iff.mp hrest
  have hsize₁ : e₁.nTxSize = 71 := by
    have hlookup := hsel.entries e₁ List.mem_cons_self
    rw [h₁] at hlookup
    have hmap := congrArg (Option.map CTxMemPoolEntry.nTxSize) hlookup
    exact (Option.some.inj ((by decide +kernel : (pairPool.mapTx.lookup parentTx.hash).map
      CTxMemPoolEntry.nTxSize = some 71).symm.trans hmap)).symm
  have hsize₂ : e₂.nTxSize = 61 := by
    have hlookup := hsel.entries e₂ (List.mem_cons_of_mem _ List.mem_cons_self)
    rw [h₂] at hlookup
    have hmap := congrArg (Option.map CTxMemPoolEntry.nTxSize) hlookup
    exact (Option.some.inj ((by decide +kernel : (pairPool.mapTx.lookup childTx.hash).map
      CTxMemPoolEntry.nTxSize = some 61).symm.trans hmap)).symm
  have hsigOps := hsel.sigOps (List.cons_ne_nil _ _)
  simp only [List.map_cons, List.map_nil, List.sum_cons, List.sum_nil, hsize₁, hsize₂,
    pairView] at hsigOps
  exact absurd hsigOps (by decide)

end Mining
