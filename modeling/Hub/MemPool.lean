/-
# The memory pool

`CTxMemPool` (`libs/server/txmempool.cpp`): the transactions that wait for a block.
Beside the transactions, `mapTx`, the pool keeps which transaction spends an outpoint,
`mapNextTx`, the links from a transaction to the pool transactions whose outputs it
spends and to those that spend its outputs, `mapLinks`, the fee deltas that were asked
for, `mapDeltas`, and in every entry the number, size and fees of the entry with its
descendants.

An iterator into `mapTx` is the hash of the transaction, and a set of iterators a list
of hashes without duplicates.  A failed assertion, and an iterator to an entry that is
not there, is `none`.  The loops over work lists have fuel for one round per entry.

The fee estimator, priorities and the rolling minimum fee rate, which are floating point
numbers, are left out; which entry has the lowest score is the parameter `lowest`.  The
memory that the nodes of the containers occupy is a parameter, too.  Fees and fee deltas
are integers: their sums are taken to fit the 64 bits of a `CAmount`.
-/
import Hub.CoinsView
import Hub.Worklist

/-! ## Entries -/

/-- `CTxMemPoolEntry`. -/
structure CTxMemPoolEntry where
  tx : CTransaction
  nFee : ℤ
  nTxSize : ℕ
  nUsageSize : ℕ
  nTime : ℤ
  spendsCoinbase : Bool
  feeDelta : ℤ
  nCountWithDescendants : ℤ
  nSizeWithDescendants : ℤ
  nModFeesWithDescendants : ℤ
  deriving DecidableEq

namespace CTxMemPoolEntry

/-- The constructor from a `Tx`, and the members that `validateTransactionInputs` fills
in afterwards, `nFee` and `spendsCoinbase`. -/
def ofTx (tx : CTransaction) (nTime : ℤ) (nUsageSize : ℕ) (nFee : ℤ) (spendsCoinbase : Bool) :
    CTxMemPoolEntry where
  tx := tx
  nFee := nFee
  nTxSize := tx.serializeSize
  nUsageSize := nUsageSize
  nTime := nTime
  spendsCoinbase := spendsCoinbase
  feeDelta := 0
  nCountWithDescendants := 1
  nSizeWithDescendants := tx.serializeSize
  nModFeesWithDescendants := 0

/-- `GetModifiedFee`. -/
def modifiedFee (e : CTxMemPoolEntry) : ℤ := e.nFee + e.feeDelta

/-- `IsDirty`. -/
def isDirty (e : CTxMemPoolEntry) : Bool := e.nCountWithDescendants == 0

/-- `UpdateFeeDelta`. -/
def updateFeeDelta (e : CTxMemPoolEntry) (newFeeDelta : ℤ) : CTxMemPoolEntry :=
  { e with
    nModFeesWithDescendants := e.nModFeesWithDescendants + (newFeeDelta - e.feeDelta)
    feeDelta := newFeeDelta }

/-- The entry with the fee delta that was asked for before it came. -/
def withDelta (e : CTxMemPoolEntry) (delta : ℤ) : CTxMemPoolEntry :=
  if delta = 0 then e else e.updateFeeDelta delta

/-- `UpdateState`. -/
def updateState (e : CTxMemPoolEntry) (modifySize modifyFee modifyCount : ℤ) :
    Option CTxMemPoolEntry :=
  if e.isDirty then some e
  else do
    guard (0 < e.nSizeWithDescendants + modifySize)
    guard (0 < e.nCountWithDescendants + modifyCount)
    some { e with
      nSizeWithDescendants := e.nSizeWithDescendants + modifySize
      nModFeesWithDescendants := e.nModFeesWithDescendants + modifyFee
      nCountWithDescendants := e.nCountWithDescendants + modifyCount }

end CTxMemPoolEntry

/-! ## The pool -/

/-- `CInPoint`: input `n` of the transaction `ptx`. -/
structure CInPoint where
  ptx : CTransaction
  n : ℕ
  deriving DecidableEq

/-- `setEntries`. -/
abbrev SetEntries := List Uint256

/-- `TxLinks`. -/
structure TxLinks where
  parents : SetEntries
  children : SetEntries
  deriving DecidableEq

/-- `CTxMemPool`. -/
structure CTxMemPool where
  mapTx : AList fun _ : Uint256 => CTxMemPoolEntry
  mapLinks : AList fun _ : Uint256 => TxLinks
  mapNextTx : AList fun _ : COutPoint => CInPoint
  mapDeltas : AList fun _ : Uint256 => ℤ
  totalTxSize : ℤ
  cachedInnerUsage : ℤ
  coins : CCoinsView

/-- The memory for an entry of `mapTx` and for a node of the other containers. -/
structure MemUsage where
  entry : ℕ
  next : ℕ
  delta : ℕ
  links : ℕ
  set : ℕ

/-- The limits of `CalculateMemPoolAncestors`. -/
structure AncestorLimits where
  ancestorCount : ℕ
  ancestorSize : ℕ
  descendantCount : ℕ
  descendantSize : ℕ

/-- The errors of `CalculateMemPoolAncestors`, with the limit and the transaction that
their texts name. -/
inductive AncestorError where
  | tooManyParents (limit : ℕ)
  | descendantSize (tx : Uint256) (limit : ℕ)
  | tooManyDescendants (tx : Uint256) (limit : ℕ)
  | ancestorSize (limit : ℕ)
  | tooManyAncestors (limit : ℕ)
  deriving DecidableEq

namespace CTxMemPool

/-- A pool with no transactions. -/
def empty (coins : CCoinsView) : CTxMemPool := ⟨∅, ∅, ∅, ∅, 0, 0, coins⟩

/-- `exists`. -/
def hasTx (s : CTxMemPool) (hash : Uint256) : Bool := (s.mapTx.lookup hash).isSome

/-- `GetMemPoolParents`. -/
def getMemPoolParents (s : CTxMemPool) (entry : Uint256) : Option SetEntries :=
  (s.mapLinks.lookup entry).map TxLinks.parents

/-- `GetMemPoolChildren`. -/
def getMemPoolChildren (s : CTxMemPool) (entry : Uint256) : Option SetEntries :=
  (s.mapLinks.lookup entry).map TxLinks.children

/-- The links of an entry; `operator[]` makes new ones if there are none. -/
def links (s : CTxMemPool) (entry : Uint256) : TxLinks :=
  (s.mapLinks.lookup entry).getD ⟨[], []⟩

/-- `mapTx.modify`. -/
def modify (s : CTxMemPool) (it : Uint256) (f : CTxMemPoolEntry → Option CTxMemPoolEntry) :
    Option CTxMemPool := do
  let e ← s.mapTx.lookup it
  let e ← f e
  some { s with mapTx := s.mapTx.insert it e }

/-! ## Ancestors and descendants -/

/-- The largest `uint64_t`. -/
def noLimit : ℕ := 2 ^ 64 - 1

def noLimits : AncestorLimits := ⟨noLimit, noLimit, noLimit, noLimit⟩

/-- A comparison of 64-bit numbers. -/
def exceeds (n : ℤ) (limit : ℕ) : Bool := decide ((limit : ℤ) < n % 2 ^ 64)

/-- The loop over the inputs in `CalculateMemPoolAncestors`. -/
def searchParents (s : CTxMemPool) (lim : AncestorLimits) :
    List COutPoint → SetEntries → Option AncestorError × SetEntries
  | [], parentHashes => (none, parentHashes)
  | o :: rest, parentHashes =>
      if s.hasTx o.hash then
        let parentHashes := parentHashes.insert o.hash
        if exceeds (parentHashes.length + 1) lim.ancestorCount then
          (some (.tooManyParents lim.ancestorCount), parentHashes)
        else s.searchParents lim rest parentHashes
      else s.searchParents lim rest parentHashes

/-- The loop over the parents of an entry in `CalculateMemPoolAncestors`. -/
def stageParents (lim : AncestorLimits) (setAncestors : SetEntries) :
    List Uint256 → SetEntries → Option AncestorError × SetEntries
  | [], parentHashes => (none, parentHashes)
  | phash :: rest, parentHashes =>
      let parentHashes :=
        if phash ∈ setAncestors then parentHashes else parentHashes.insert phash
      if exceeds (parentHashes.length + setAncestors.length + 1) lim.ancestorCount then
        (some (.tooManyAncestors lim.ancestorCount), parentHashes)
      else stageParents lim setAncestors rest parentHashes

/-- The loop of `CalculateMemPoolAncestors`. -/
def walkAncestors (s : CTxMemPool) (entry : CTxMemPoolEntry) (lim : AncestorLimits) :
    ℕ → ℤ → SetEntries → SetEntries → Option (Option AncestorError × SetEntries)
  | _, _, [], setAncestors => some (none, setAncestors)
  | 0, _, _ :: _, _ => none
  | fuel + 1, totalSizeWithAncestors, stageit :: parentHashes, setAncestors => do
      let setAncestors := setAncestors.insert stageit
      let e ← s.mapTx.lookup stageit
      let totalSizeWithAncestors := totalSizeWithAncestors + e.nTxSize
      if exceeds (e.nSizeWithDescendants + entry.nTxSize) lim.descendantSize then
        some (some (.descendantSize stageit lim.descendantSize), setAncestors)
      else if exceeds (e.nCountWithDescendants + 1) lim.descendantCount then
        some (some (.tooManyDescendants stageit lim.descendantCount), setAncestors)
      else if exceeds totalSizeWithAncestors lim.ancestorSize then
        some (some (.ancestorSize lim.ancestorSize), setAncestors)
      else do
        let parents ← s.getMemPoolParents stageit
        match stageParents lim setAncestors parents parentHashes with
        | (some err, _) => some (some err, setAncestors)
        | (none, parentHashes) =>
            s.walkAncestors entry lim fuel totalSizeWithAncestors parentHashes setAncestors

/-- `CalculateMemPoolAncestors`: the error, if it returns `false`, and the set of
ancestors. -/
def calculateMemPoolAncestors (s : CTxMemPool) (entry : CTxMemPoolEntry) (lim : AncestorLimits)
    (fSearchForParents : Bool) : Option (Option AncestorError × SetEntries) := do
  let fuel := s.mapTx.keys.length
  if fSearchForParents then
    match s.searchParents lim entry.tx.prevouts [] with
    | (some err, _) => some (some err, [])
    | (none, parentHashes) => s.walkAncestors entry lim fuel entry.nTxSize parentHashes []
  else
    let parentHashes ← s.getMemPoolParents entry.tx.hash
    s.walkAncestors entry lim fuel entry.nTxSize parentHashes []

/-- `CalculateDescendants`. -/
def calculateDescendants (s : CTxMemPool) (setDescendants : SetEntries) (entryit : Uint256) :
    Option SetEntries :=
  let stage := if entryit ∈ setDescendants then [] else [entryit]
  Worklist.run s.getMemPoolChildren s.mapTx.keys.length stage setDescendants

section Memory

variable (mu : MemUsage)

/-- `DynamicMemoryUsage`. -/
def dynamicMemoryUsage (s : CTxMemPool) : ℤ :=
  mu.entry * s.mapTx.keys.length + mu.next * s.mapNextTx.keys.length
    + mu.delta * s.mapDeltas.keys.length + mu.links * s.mapLinks.keys.length
    + s.cachedInnerUsage

/-! ## Links -/

/-- `UpdateChild`. -/
def updateChild (s : CTxMemPool) (entry child : Uint256) (add : Bool) : CTxMemPool :=
  let links := s.links entry
  if add then
    { s with
      mapLinks := s.mapLinks.insert entry { links with children := links.children.insert child }
      cachedInnerUsage :=
        s.cachedInnerUsage + if child ∈ links.children then 0 else (mu.set : ℤ) }
  else
    { s with
      mapLinks := s.mapLinks.insert entry { links with children := links.children.erase child }
      cachedInnerUsage :=
        s.cachedInnerUsage - if child ∈ links.children then (mu.set : ℤ) else 0 }

/-- `UpdateParent`. -/
def updateParent (s : CTxMemPool) (entry parent : Uint256) (add : Bool) : CTxMemPool :=
  let links := s.links entry
  if add then
    { s with
      mapLinks := s.mapLinks.insert entry { links with parents := links.parents.insert parent }
      cachedInnerUsage :=
        s.cachedInnerUsage + if parent ∈ links.parents then 0 else (mu.set : ℤ) }
  else
    { s with
      mapLinks := s.mapLinks.insert entry { links with parents := links.parents.erase parent }
      cachedInnerUsage :=
        s.cachedInnerUsage - if parent ∈ links.parents then (mu.set : ℤ) else 0 }

/-- `UpdateAncestorsOf`. -/
def updateAncestorsOf (s : CTxMemPool) (add : Bool) (it : Uint256) (setAncestors : SetEntries) :
    Option CTxMemPool := do
  let parentIters ← s.getMemPoolParents it
  let s := parentIters.foldl (fun s piter => s.updateChild mu piter it add) s
  let e ← s.mapTx.lookup it
  let updateCount : ℤ := if add then 1 else -1
  let updateSize := updateCount * e.nTxSize
  let updateFee := updateCount * e.modifiedFee
  setAncestors.foldlM
    (fun s ancestorIt => s.modify ancestorIt (·.updateState updateSize updateFee updateCount)) s

/-- `UpdateChildrenForRemoval`. -/
def updateChildrenForRemoval (s : CTxMemPool) (it : Uint256) : Option CTxMemPool := do
  let setMemPoolChildren ← s.getMemPoolChildren it
  some (setMemPoolChildren.foldl (fun s updateIt => s.updateParent mu updateIt it false) s)

/-! ## Insertion -/

/-- The outpoints that a transaction spends, put into `mapNextTx`. -/
def setNextTx (tx : CTransaction) (m : AList fun _ : COutPoint => CInPoint) :
    AList fun _ : COutPoint => CInPoint :=
  tx.prevouts.zipIdx.foldl (fun m (oi : COutPoint × ℕ) => m.insert oi.1 ⟨tx, oi.2⟩) m

/-- The part of `addUnchecked` that puts the entry into the maps. -/
def putEntry (s : CTxMemPool) (hash : Uint256) (entry : CTxMemPoolEntry) : CTxMemPool :=
  { s with
    mapTx := s.mapTx.insert hash (entry.withDelta ((s.mapDeltas.lookup hash).getD 0))
    mapLinks := s.mapLinks.insert hash ⟨[], []⟩
    cachedInnerUsage := s.cachedInnerUsage + entry.nUsageSize
    mapNextTx := setNextTx entry.tx s.mapNextTx }

/-- The loop of `addUnchecked` over `setParentTransactions`. -/
def setParents (s : CTxMemPool) (hash : Uint256) (setParentTransactions : List Uint256) :
    CTxMemPool :=
  setParentTransactions.foldl
    (fun s phash => if s.hasTx phash then s.updateParent mu hash phash true else s) s

/-- `addUnchecked`, of a transaction that is not in the pool. -/
def addUnchecked (s : CTxMemPool) (hash : Uint256) (entry : CTxMemPoolEntry)
    (setAncestors : SetEntries) : Option CTxMemPool := do
  let s := s.putEntry hash entry
  let s := s.setParents mu hash (entry.tx.prevouts.map COutPoint.hash).dedup
  let s ← s.updateAncestorsOf mu true hash setAncestors
  some { s with totalTxSize := s.totalTxSize + entry.nTxSize }

end Memory

section Coins

variable (usage : CCoins → ℕ) (mu : MemUsage)

/-- The loop of `insertTx` over the inputs. -/
def checkInputs (s : CTxMemPool) : List COutPoint → Except String Bool × CTxMemPool
  | [] => (.ok true, s)
  | prevout :: rest =>
      if (s.mapNextTx.lookup prevout).isSome then (.error "txn-mempool-conflict", s)
      else
        let found := (s.mapTx.lookup prevout.hash).any fun e =>
          (e.tx.vout[prevout.n]?).any fun o => !o.isNull
        if found then s.checkInputs rest
        else
          let (coins, view) := s.coins.getCoins usage prevout.hash
          let s := { s with coins := view }
          if (coins.map fun c => c.isAvailable prevout.n).getD false then s.checkInputs rest
          else (.ok false, s)

/-- `insertTx`. -/
def insertTx (s : CTxMemPool) (entry : CTxMemPoolEntry) :
    Option (Except String Bool × CTxMemPool) :=
  if s.hasTx entry.tx.hash then some (.ok false, s)
  else
    match s.checkInputs usage entry.tx.prevouts with
    | (.ok true, s) => do
        let (_, setAncestors) ← s.calculateMemPoolAncestors entry noLimits true
        let s ← s.addUnchecked mu entry.tx.hash entry setAncestors
        some (.ok true, s)
    | (result, s) => some (result, s)

end Coins

/-! ## Removal -/

section Memory

variable (mu : MemUsage)

/-- `removeUnchecked`. -/
def removeUnchecked (s : CTxMemPool) (it : Uint256) : Option CTxMemPool := do
  let e ← s.mapTx.lookup it
  some { s with
    mapNextTx := e.tx.prevouts.foldl (fun m o => m.erase o) s.mapNextTx
    totalTxSize := s.totalTxSize - e.nTxSize
    cachedInnerUsage := s.cachedInnerUsage - e.nUsageSize
      - (mu.set * (s.links it).parents.length + mu.set * (s.links it).children.length)
    mapLinks := s.mapLinks.erase it
    mapTx := s.mapTx.erase it }

/-- The body of the first loop of `UpdateForRemoveFromMempool`. -/
def updateAncestorsForRemoval (s : CTxMemPool) (removeIt : Uint256) : Option CTxMemPool := do
  let entry ← s.mapTx.lookup removeIt
  let (_, setAncestors) ← s.calculateMemPoolAncestors entry noLimits false
  s.updateAncestorsOf mu false removeIt setAncestors

/-- `UpdateForRemoveFromMempool`. -/
def updateForRemoveFromMempool (s : CTxMemPool) (entriesToRemove : SetEntries) :
    Option CTxMemPool := do
  let s ← entriesToRemove.foldlM (updateAncestorsForRemoval mu) s
  entriesToRemove.foldlM (updateChildrenForRemoval mu) s

/-- `RemoveStaged`. -/
def removeStaged (s : CTxMemPool) (stage : SetEntries) : Option CTxMemPool := do
  let s ← s.updateForRemoveFromMempool mu stage
  stage.foldlM (removeUnchecked mu) s

/-- The entries that `remove` starts from. -/
def txToRemove (s : CTxMemPool) (origTx : CTransaction) (fRecursive : Bool) : Option SetEntries :=
  if s.hasTx origTx.hash then some [origTx.hash]
  else if fRecursive then
    (List.range origTx.vout.length).foldlM (fun l i =>
      match s.mapNextTx.lookup ⟨origTx.hash, i⟩ with
      | none => some l
      | some p => if s.hasTx p.ptx.hash then some (l.insert p.ptx.hash) else none) []
  else some []

/-- The entries that `remove` removes. -/
def allRemoves (s : CTxMemPool) (origTx : CTransaction) (fRecursive : Bool) :
    Option SetEntries := do
  let toRemove ← s.txToRemove origTx fRecursive
  if fRecursive then toRemove.foldlM s.calculateDescendants [] else some toRemove

/-- `remove`, and the transactions that it removed. -/
def remove (s : CTxMemPool) (origTx : CTransaction) (fRecursive : Bool) :
    Option (List CTransaction × CTxMemPool) := do
  let setAllRemoves ← s.allRemoves origTx fRecursive
  let removed ← setAllRemoves.mapM fun it => (s.mapTx.lookup it).map CTxMemPoolEntry.tx
  let s ← s.removeStaged mu setAllRemoves
  some (removed, s)

/-- `ClearPrioritisation`. -/
def clearPrioritisation (s : CTxMemPool) (hash : Uint256) : CTxMemPool :=
  { s with mapDeltas := s.mapDeltas.erase hash }

/-- The body of the loop of `removeConflicts`. -/
def removeConflict (tx : CTransaction) (acc : List CTransaction × CTxMemPool)
    (prevout : COutPoint) : Option (List CTransaction × CTxMemPool) :=
  match acc.2.mapNextTx.lookup prevout with
  | none => some acc
  | some p =>
      if p.ptx.hash = tx.hash then some acc
      else do
        let (removed, s) ← acc.2.remove mu p.ptx true
        some (acc.1 ++ removed, s.clearPrioritisation p.ptx.hash)

/-- `removeConflicts`, and the transactions that it removed. -/
def removeConflicts (s : CTxMemPool) (tx : CTransaction) :
    Option (List CTransaction × CTxMemPool) :=
  tx.prevouts.foldlM (removeConflict mu tx) ([], s)

/-- The body of the loop of `removeForBlock`. -/
def removeBlockTx (acc : List CTransaction × CTxMemPool) (tx : CTransaction) :
    Option (List CTransaction × CTxMemPool) := do
  let (_, s) ← acc.2.remove mu tx false
  let (conflicts, s) ← s.removeConflicts mu tx
  some (acc.1 ++ conflicts, s.clearPrioritisation tx.hash)

/-- `Expire`, and the number of transactions that it removed. -/
def expire (s : CTxMemPool) (time : ℤ) : Option (ℕ × CTxMemPool) := do
  let toremove := (s.mapTx.entries.filter fun it => it.2.nTime < time).map Sigma.fst
  let stage ← toremove.foldlM s.calculateDescendants []
  let s ← s.removeStaged mu stage
  some (stage.length, s)

/-- The transactions that `TrimToSize` reports after it removed `txn`: the pool does not
have them, and does not spend from them. -/
def noSpendsRemaining (s : CTxMemPool) (txn : List CTransaction) : List Uint256 :=
  (txn.flatMap CTransaction.prevouts).filterMap fun o =>
    if s.hasTx o.hash ∨ s.mapNextTx.keys.any (·.hash == o.hash) then none else some o.hash

/-- The loop of `TrimToSize`. -/
def trim (lowest : CTxMemPool → Option Uint256) (sizelimit : ℕ) :
    ℕ → List Uint256 → CTxMemPool → Option (List Uint256 × CTxMemPool)
  | 0, pvNoSpendsRemaining, s =>
      if s.dynamicMemoryUsage mu > sizelimit then none else some (pvNoSpendsRemaining, s)
  | fuel + 1, pvNoSpendsRemaining, s =>
      if s.dynamicMemoryUsage mu > sizelimit then do
        let it ← lowest s
        let stage ← s.calculateDescendants [] it
        let txn ← stage.mapM fun it => (s.mapTx.lookup it).map CTxMemPoolEntry.tx
        let s ← s.removeStaged mu stage
        trim lowest sizelimit fuel (pvNoSpendsRemaining ++ s.noSpendsRemaining txn) s
      else some (pvNoSpendsRemaining, s)

/-- `TrimToSize`, and what it puts into `pvNoSpendsRemaining`.  It fails if it reads the
first entry of an empty pool. -/
def trimToSize (lowest : CTxMemPool → Option Uint256) (s : CTxMemPool) (sizelimit : ℕ) :
    Option (List Uint256 × CTxMemPool) :=
  trim mu lowest sizelimit s.mapTx.keys.length [] s

/-- `clear`. -/
def clear (s : CTxMemPool) : CTxMemPool :=
  { s with mapTx := ∅, mapLinks := ∅, mapNextTx := ∅, totalTxSize := 0, cachedInnerUsage := 0 }

/-- `PrioritiseTransaction`, for the fee delta. -/
def prioritiseTransaction (s : CTxMemPool) (hash : Uint256) (nFeeDelta : ℤ) :
    Option CTxMemPool := do
  let delta := (s.mapDeltas.lookup hash).getD 0 + nFeeDelta
  let s := { s with mapDeltas := s.mapDeltas.insert hash delta }
  match s.mapTx.lookup hash with
  | none => some s
  | some _ => do
      let s ← s.modify hash fun e => some (e.updateFeeDelta delta)
      let e ← s.mapTx.lookup hash
      let (_, setAncestors) ← s.calculateMemPoolAncestors e noLimits false
      setAncestors.foldlM (fun s ancestorIt => s.modify ancestorIt (·.updateState 0 nFeeDelta 0)) s

end Memory

section Coins

variable (usage : CCoins → ℕ) (mu : MemUsage)

/-- `removeForBlock`, and the conflicting transactions that it removed.  The changes of
the cursor, a cache over the coins view of the pool, are written to that view. -/
def removeForBlock (s : CTxMemPool) (vtx : List CTransaction)
    (utxoDBCursor : Option CCoinsViewCache) : Option (List CTransaction × CTxMemPool) := do
  let (conflicts, s) ← vtx.foldlM (removeBlockTx mu) ([], s)
  match utxoDBCursor with
  | none => some (conflicts, s)
  | some cursor => some (conflicts, { s with coins := (cursor.flush usage).base })

def coinbaseMaturity : ℤ := 100

/-- The loop of `removeForReorg` over the inputs of a transaction that spends a coinbase:
whether one of the coins is gone or immature. -/
def spendsImmature (s : CTxMemPool) (nMemPoolHeight : ℤ) :
    List COutPoint → CCoinsView → Bool × CCoinsView
  | [], view => (false, view)
  | prevout :: rest, view =>
      if s.hasTx prevout.hash then s.spendsImmature nMemPoolHeight rest view
      else
        match view.getCoins usage prevout.hash with
        | (none, view) => (true, view)
        | (some coins, view) =>
            if coins.fCoinBase ∧ nMemPoolHeight - coins.nHeight.toInt < coinbaseMaturity then
              (true, view)
            else s.spendsImmature nMemPoolHeight rest view

/-- The first loop of `removeForReorg`; `final` stands for `CheckFinalTx` and
`CheckSequenceLocks`. -/
def reorgRemovals (s : CTxMemPool) (nMemPoolHeight : ℤ) (final : CTransaction → Bool) :
    List CTxMemPoolEntry → CCoinsView → List CTransaction × CCoinsView
  | [], view => ([], view)
  | e :: rest, view =>
      if !final e.tx then
        let (txs, view) := s.reorgRemovals nMemPoolHeight final rest view
        (e.tx :: txs, view)
      else if e.spendsCoinbase then
        let (immature, view) := s.spendsImmature usage nMemPoolHeight e.tx.prevouts view
        let (txs, view) := s.reorgRemovals nMemPoolHeight final rest view
        (if immature then e.tx :: txs else txs, view)
      else s.reorgRemovals nMemPoolHeight final rest view

/-- `removeForReorg`. -/
def removeForReorg (s : CTxMemPool) (nMemPoolHeight : ℤ) (final : CTransaction → Bool) :
    Option CTxMemPool :=
  let (transactionsToRemove, view) := s.reorgRemovals usage nMemPoolHeight final
    (s.mapTx.entries.map Sigma.snd) s.coins
  transactionsToRemove.foldlM (fun s tx => (s.remove mu tx true).map Prod.snd)
    { s with coins := view }

end Coins

end CTxMemPool
