/-
# Reorgs and the memory pool

`ValidationEnginePrivate::prepareChain` (`libs/server/validation/BlockValidation.cpp`): blocks are
rolled back, the changes are flushed into the coins of the pool, `removeForReorg` takes out what is
not final or not mature anymore, and the transactions of the blocks come back one by one, each with
what spent from it.

A transaction that comes back has no descendants in the pool, so `updateTransactionsFromBlock`
finds nothing to do (`updateTransactionsFromBlock_of_childless`).  What is in the pool meanwhile
waits for a transaction that is still to come (`Waiting`), and leaves the pool when that one comes.

This is not so for what spends a coinbase of the blocks that were rolled back.  It leaves the pool
only if `removeForReorg` finds that it should (`Cured`): after the flush, the coins of the pool can
have an entry without outputs for such a coinbase, which is neither missing nor immature.
-/
import Hub.Rollback
import Hub.LockPoints
import Hub.Pow
import Mathlib

/-! ## The code -/

/-- `CTxMemPoolEntry::SetDirty`. -/
def CTxMemPoolEntry.setDirty (e : CTxMemPoolEntry) : CTxMemPoolEntry :=
  { e with
    nCountWithDescendants := 0
    nSizeWithDescendants := e.nTxSize
    nModFeesWithDescendants := e.modifiedFee }

namespace CTxMemPool

/-- `cacheMap`. -/
abbrev CacheMap := AList fun _ : Uint256 => SetEntries

/-- The variables of the loop of `UpdateForDescendants`. -/
structure Visit where
  stageEntries : SetEntries
  setAllDescendants : SetEntries
  nChildrenToVisit : ℕ

/-- One of the cached descendants of a child. -/
def Visit.cacheEntry (setExclude : SetEntries) (v : Visit) (cacheEntry : Uint256) : Visit :=
  if cacheEntry ∈ v.setAllDescendants then v
  else
    { v with
      setAllDescendants := v.setAllDescendants.insert cacheEntry
      nChildrenToVisit := v.nChildrenToVisit
        + if cacheEntry ∈ setExclude ∨ cacheEntry ∈ v.stageEntries then 0 else 1 }

/-- One of the children. -/
def Visit.childEntry (cachedDescendants : CacheMap) (setExclude : SetEntries) (v : Visit)
    (childEntry : Uint256) : Visit :=
  match cachedDescendants.lookup childEntry with
  | some entries => entries.foldl (cacheEntry setExclude) v
  | none =>
      if childEntry ∈ v.setAllDescendants ∨ childEntry ∈ v.stageEntries then v
      else
        { v with
          stageEntries := v.stageEntries.insert childEntry
          nChildrenToVisit := v.nChildrenToVisit + if childEntry ∈ setExclude then 0 else 1 }

/-- The loop over the children; `none` if there are too many. -/
def Visit.children (maxDescendantsToVisit : ℕ) (cachedDescendants : CacheMap)
    (setExclude : SetEntries) : List Uint256 → Visit → Option Visit
  | [], v => some v
  | c :: rest, v =>
      let v := v.childEntry cachedDescendants setExclude c
      if maxDescendantsToVisit < v.nChildrenToVisit then none
      else Visit.children maxDescendantsToVisit cachedDescendants setExclude rest v

/-- The loop of `UpdateForDescendants`; the inner `none` is its `return false`. -/
def visitDescendants (s : CTxMemPool) (maxDescendantsToVisit : ℕ) (cachedDescendants : CacheMap)
    (setExclude : SetEntries) : ℕ → Visit → Option (Option SetEntries)
  | fuel, v =>
      match v.stageEntries, fuel with
      | [], _ => some (some v.setAllDescendants)
      | _ :: _, 0 => none
      | cit :: stageEntries, fuel + 1 => do
          let e ← s.mapTx.lookup cit
          if e.isDirty then some none
          else do
            let setChildren ← s.getMemPoolChildren cit
            let v : Visit := ⟨stageEntries, v.setAllDescendants.insert cit, v.nChildrenToVisit⟩
            match v.children maxDescendantsToVisit cachedDescendants setExclude setChildren with
            | none => some none
            | some v =>
                s.visitDescendants maxDescendantsToVisit cachedDescendants setExclude fuel v

/-- `UpdateForDescendants`. -/
def updateForDescendants (s : CTxMemPool) (updateIt : Uint256) (maxDescendantsToVisit : ℕ)
    (cachedDescendants : CacheMap) (setExclude : SetEntries) :
    Option (Bool × CTxMemPool × CacheMap) := do
  let stageEntries ← s.getMemPoolChildren updateIt
  match ← s.visitDescendants maxDescendantsToVisit cachedDescendants setExclude
      s.mapTx.keys.length ⟨stageEntries, [], 0⟩ with
  | none => some (false, s, cachedDescendants)
  | some setAllDescendants => do
      let counted := setAllDescendants.filter fun cit => cit ∉ setExclude
      let entries ← counted.mapM fun cit => s.mapTx.lookup cit
      let cachedDescendants := counted.foldl (fun (m : CacheMap) cit =>
        m.insert updateIt (((m.lookup updateIt).getD []).insert cit)) cachedDescendants
      let s ← s.modify updateIt (·.updateState (entries.map fun e => (e.nTxSize : ℤ)).sum
        (entries.map CTxMemPoolEntry.modifiedFee).sum entries.length)
      some (true, s, cachedDescendants)

/-- The part of `mapNextTx` that belongs to the outputs of a transaction, in its order. -/
def nextTxOf (s : CTxMemPool) (hash : Uint256) : List CInPoint :=
  ((s.mapNextTx.entries.filter fun p : (_ : COutPoint) × CInPoint => p.1.hash = hash).insertionSort
    fun p q => p.1.n ≤ q.1.n).map Sigma.snd

section

variable (usage : CCoins → ℕ) (mu : MemUsage)

/-- One of the children that `UpdateTransactionsFromBlock` finds, with the set of those before. -/
def linkChild (it : Uint256) (setAlreadyIncluded : SetEntries) (acc : CTxMemPool × SetEntries)
    (p : CInPoint) : Option (CTxMemPool × SetEntries) := do
  let (s, setChildren) := acc
  let childHash := p.ptx.hash
  guard (s.hasTx childHash)
  if childHash ∈ setChildren ∨ childHash ∈ setAlreadyIncluded then
    some (s, setChildren.insert childHash)
  else
    some ((s.updateChild mu it childHash true).updateParent mu childHash it true,
      setChildren.insert childHash)

/-- The loop of `UpdateTransactionsFromBlock`, with the cache. -/
def updateTransaction (setAlreadyIncluded : SetEntries) (acc : CTxMemPool × CacheMap)
    (hash : Uint256) : Option (CTxMemPool × CacheMap) := do
  let (s, mapMemPoolDescendantsToUpdate) := acc
  if s.hasTx hash then do
    let (s, _) ← (s.nextTxOf hash).foldlM (linkChild mu hash setAlreadyIncluded) (s, [])
    let (done, s, mapMemPoolDescendantsToUpdate) ←
      s.updateForDescendants hash 100 mapMemPoolDescendantsToUpdate setAlreadyIncluded
    if done then some (s, mapMemPoolDescendantsToUpdate)
    else do
      let s ← s.modify hash fun e => some e.setDirty
      some (s, mapMemPoolDescendantsToUpdate)
  else some (s, mapMemPoolDescendantsToUpdate)

/-- `UpdateTransactionsFromBlock`. -/
def updateTransactionsFromBlock (s : CTxMemPool) (vHashesToUpdate : List Uint256) :
    Option CTxMemPool :=
  (vHashesToUpdate.reverse.foldlM (updateTransaction mu vHashesToUpdate) (s, ∅)).map Prod.fst

end

end CTxMemPool

/-- What is not modelled of `checkTransaction`: whether another check refuses, and what the entry
has of the time and of memory. -/
structure Verdict where
  refuses : Bool
  nTime : ℤ
  nUsageSize : ℕ

namespace CTxMemPool

section

variable (usage : CCoins → ℕ) (mu : MemUsage) (blockHeight : ℤ) (verdict : ℕ → Verdict)

/-- `checkTransaction` with the flag `FromMempool`, after `calls` other calls. -/
def revalidate (acc : ℕ × CTxMemPool) (tx : CTransaction) : Option (ℕ × CTxMemPool) :=
  let (calls, s) := acc
  if (verdict calls).refuses then some (calls + 1, s)
  else
    match TxValidationState.checkTransaction s tx (verdict calls).nTime
        (verdict calls).nUsageSize blockHeight with
    | .error _ => some (calls + 1, s)
    | .ok entry => do
        let (inserted, s) ← s.insertTx usage mu entry
        match inserted with
        | .ok true => do
            let s ← s.updateTransactionsFromBlock mu [tx.hash]
            some (calls + 1, s)
        | _ => some (calls + 1, s)

/-- A transaction of a block comes back, and then what spent from it. -/
def readdTx (acc : ℕ × CTxMemPool) (tx : CTransaction) : Option (ℕ × CTxMemPool) := do
  let (calls, s) := acc
  let (deps, s) ← s.remove mu tx true
  (tx :: deps).foldlM (revalidate usage mu blockHeight verdict) (calls, s)

/-- `prepareChain`, with the blocks to revert from the tip down and the height of the block that
is the tip then. -/
def prepareChain (final : CTransaction → Bool) (s : CTxMemPool)
    (revertedBlocks : List StoredBlock) : Option CTxMemPool :=
  if revertedBlocks.isEmpty then some s
  else do
    let view ← (CCoinsViewCache.create s.coins).rollBack usage revertedBlocks
    let s ← CTxMemPool.removeForReorg usage mu { s with coins := (view.flush usage).base }
      blockHeight final
    let (_, s) ← revertedBlocks.reverse.foldlM
      (fun acc b => b.vtx.tail.foldlM (readdTx usage mu blockHeight verdict) acc) (0, s)
    some s

end

end CTxMemPool

/-! ## A transaction that comes back -/

namespace CTxMemPool

variable {usage : CCoins → ℕ} {mu : MemUsage} {s s' t v : CTxMemPool}

theorem nextTxOf_of_childless (hs : Graph s) {x : Uint256} (hx : s.hasTx x = true)
    (hchildless : ∀ c, ¬ s.SpendsFrom c x) : s.nextTxOf x = [] := by
  have hnone : (s.mapNextTx.entries.filter
      fun p : (_ : COutPoint) × CInPoint => p.1.hash = x) = [] := by
    rw [List.filter_eq_nil_iff]
    intro p hp hhash
    have hlookup : s.mapNextTx.lookup p.1 = some p.2 := by
      rw [← Option.mem_def, AList.mem_lookup_iff]
      exact hp
    obtain ⟨htx, hn⟩ := (hs.next.next p.1 p.2).mp hlookup
    exact hchildless p.2.ptx.hash
      ⟨p.2.ptx, htx, hx, p.1, List.mem_of_getElem? hn, by simpa using hhash⟩
  rw [nextTxOf, hnone]
  rfl

variable (mu) in
/-- **`UpdateTransactionsFromBlock`** of a transaction without children changes no entry. -/
theorem updateTransactionsFromBlock_of_childless (hs : Graph s) {x : Uint256}
    (hx : s.hasTx x = true) (hchildless : ∀ c, ¬ s.SpendsFrom c x) :
    ∃ s', s.updateTransactionsFromBlock mu [x] = some s' ∧ Graph s' ∧ Frame s s' := by
  obtain ⟨e, he⟩ := hasTx_iff_lookup.mp hx
  have hchildren : s.getMemPoolChildren x = some [] := by
    rw [getMemPoolChildren_of_hasTx hs.keys hx]
    congr 1
    rw [List.eq_nil_iff_forall_not_mem]
    intro c hc
    exact hchildless c ((hs.children c x).mp hc)
  have htotals := hs.totals x e he
  have hsum : 0 ≤ ∑ d ∈ s.descendants x, s.sizeAt d := Finset.sum_nonneg fun d _ => s.sizeAt_nonneg d
  have hpos := hs.size_pos x e he
  have hcount := htotals.count
  have hsize := htotals.size
  -- nothing is added to the totals
  have hstate : e.updateState 0 0 0 = some e := by
    rw [CTxMemPoolEntry.updateState_eq_some (by omega) (by omega) (by omega)]
    simp
  obtain ⟨m, hm, hframe, htot⟩ := foldlM_updateState (s := s) (x := 0) (y := 0) (z := 0)
    (F := s.descendants) (List.nodup_singleton x)
    (by
      intro a ha
      obtain rfl := List.mem_singleton.mp ha
      exact ⟨e, e, he, hstate, htotals⟩)
    (fun a d _ hd => hs.totals a d hd)
  have hmodify : s.modify x (·.updateState 0 0 0) = some { s with mapTx := m } := by
    simpa using hm
  refine ⟨{ s with mapTx := m }, ?_, ?_, hframe⟩
  · have hvisit : s.visitDescendants 100 ∅ [x] s.mapTx.keys.length ⟨[], [], 0⟩
        = some (some []) := by
      unfold visitDescendants
      rfl
    have hupdate : updateTransaction mu [x] (s, ∅) x = some ({ s with mapTx := m }, ∅) := by
      simp only [updateTransaction, hx, if_true, nextTxOf_of_childless hs hx hchildless,
        List.foldlM_nil, updateForDescendants, hchildren, Option.bind_eq_bind, Option.bind_some,
        Option.pure_def, hvisit, List.filter_nil, List.mapM_nil, List.foldl_nil, List.map_nil,
        List.sum_nil, List.length_nil, Nat.cast_zero, hmodify]
    simp [updateTransactionsFromBlock, hupdate]
  · have hshape : Shape s := ⟨hs.next, hs.keys, hs.parents, hs.children, hs.parents_nodup,
      hs.children_nodup, hs.acyclic, hs.size_pos, hs.delta⟩
    refine (hshape.frame hframe rfl).graph fun a d hd => ?_
    rw [hframe.sizeAt, hframe.feeAt, hframe.descendants]
    exact htot a d hd

end CTxMemPool

/-! ## What waits for a transaction that is still to come -/

/-- The outpoint is an output of the transaction. -/
def COutPoint.IsOutputOf (o : COutPoint) (tx : CTransaction) : Prop :=
  o.hash = tx.hash ∧ o.n < tx.vout.length

/-- It is the other transaction, or spends one of its outputs. -/
def CTransaction.Touches (tx tx' : CTransaction) : Prop :=
  tx.hash = tx'.hash ∨ ∃ o ∈ tx.prevouts, o.IsOutputOf tx'

namespace CTxMemPool

variable {usage : CCoins → ℕ} {mu : MemUsage} {s s' t v : CTxMemPool}
  {body : Uint256 → CTransaction} {U : Uint256 → Option CCoins} {o : COutPoint}
  {reverted pending : List CTransaction} {E : COutPoint → Prop} {tx : CTransaction}

/-- The outpoint is an output of the pool or an unspent coin. -/
def Backed (U : Uint256 → Option CCoins) (s : CTxMemPool) (o : COutPoint) : Prop :=
  (∃ tx', s.txAt o.hash = some tx' ∧
    (CCoins.fromTx tx' mempoolHeight).isAvailable o.n = true) ∨ Unspent U o

/-- The entry leaves together with one of the transactions that are still to come. -/
def Doomed (s : CTxMemPool) (pending : List CTransaction) (x : Uint256) : Prop :=
  ∃ a tx, Relation.ReflTransGen s.SpendsFrom x a ∧ s.txAt a = some tx ∧
    ∃ tx' ∈ pending, tx.Touches tx'

/-- The pool while the transactions `pending` are still to come.  An input that nothing backs is an
output of one of the transactions that were reverted, and will leave unless it is excused. -/
structure Waiting (body : Uint256 → CTransaction) (U : Uint256 → Option CCoins)
    (reverted : List CTransaction) (E : COutPoint → Prop) (pending : List CTransaction)
    (s : CTxMemPool) : Prop where
  graph : Graph s
  wf : s.coins.Wf
  value : s.coins.value = U
  body : ∀ h tx, s.txAt h = some tx → body h = tx
  loose : ∀ h tx, s.txAt h = some tx → tx.isCoinBase = false
  inputs : ∀ h tx, s.txAt h = some tx → ∀ o ∈ tx.prevouts, Backed U s o ∨
    ((∃ tx' ∈ reverted, o.IsOutputOf tx') ∧ (E o ∨ Doomed s pending h))

/-- While the transaction is not in the pool, only its unspent coins are spent there. -/
def Orphaned (U : Uint256 → Option CCoins) (s : CTxMemPool) (x : Uint256) : Prop :=
  s.hasTx x = false → ∀ h tx, s.txAt h = some tx → ∀ o ∈ tx.prevouts, o.hash = x → Unspent U o

/-- What happens when a transaction comes back. -/
structure Grows (U : Uint256 → Option CCoins) (s s' : CTxMemPool) : Prop where
  keep : ∀ x tx, s.txAt x = some tx → s'.txAt x = some tx
  parents : ∀ x p, s.hasTx x = true → s'.SpendsFrom x p → s.SpendsFrom x p
  orphaned : ∀ x, Orphaned U s x → Orphaned U s' x

theorem Grows.hasTx (h : Grows U s s') {x : Uint256} (hx : s.hasTx x = true) :
    s'.hasTx x = true := by
  obtain ⟨tx, htx⟩ := exists_txAt hx
  exact hasTx_of_txAt (h.keep x tx htx)

theorem Grows.trans (h : Grows U s t) (h' : Grows U t s') : Grows U s s' where
  keep x tx hx := h'.keep x tx (h.keep x tx hx)
  parents x p hx hp := h.parents x p hx (h'.parents x p (h.hasTx hx) hp)
  orphaned x hx := h'.orphaned x (h.orphaned x hx)

/-- The same transactions. -/
theorem Grows.of_eq (htx : s'.txAt = s.txAt) : Grows U s s' where
  keep x tx hx := by
    rw [htx]
    exact hx
  parents x p _ := by
    rintro ⟨tx, hx, hp, ho⟩
    rw [htx] at hx
    rw [hasTx_eq, htx, ← hasTx_eq] at hp
    exact ⟨tx, hx, hp, ho⟩
  orphaned x hx := by
    intro hnone h tx
    rw [hasTx_eq, htx, ← hasTx_eq] at hnone
    rw [htx]
    exact hx hnone h tx

theorem spendsFrom_of_keep (hkeep : ∀ x tx, s.txAt x = some tx → s'.txAt x = some tx)
    {c p : Uint256} (h : s.SpendsFrom c p) : s'.SpendsFrom c p := by
  obtain ⟨tx, hc, hp, ho⟩ := h
  obtain ⟨tx', htx'⟩ := exists_txAt hp
  exact ⟨tx, hkeep c tx hc, hasTx_of_txAt (hkeep p tx' htx'), ho⟩

theorem Backed.of_keep (hkeep : ∀ x tx, s.txAt x = some tx → s'.txAt x = some tx)
    (h : Backed U s o) : Backed U s' o :=
  h.imp_left fun ⟨tx', htx', hav⟩ => ⟨tx', hkeep _ _ htx', hav⟩

theorem Doomed.of_keep (hkeep : ∀ x tx, s.txAt x = some tx → s'.txAt x = some tx) {x : Uint256}
    (h : Doomed s pending x) : Doomed s' pending x := by
  obtain ⟨a, tx, hpath, ha, htouch⟩ := h
  have hpath' := Relation.ReflTransGen.mono (fun _ _ => spendsFrom_of_keep hkeep) _ _ hpath
  exact ⟨a, tx, hpath', hkeep a tx ha, htouch⟩

/-- What the caches of the coins hold is not part of the statement. -/
theorem Waiting.withCoins (h : Waiting body U reverted E pending s) {view : CCoinsView}
    (hwf : view.Wf) (hval : view.value = s.coins.value) :
    Waiting body U reverted E pending { s with coins := view } where
  graph := h.graph.of_eq rfl rfl rfl fun _ _ => rfl
  wf := hwf
  value := hval.trans h.value
  body := h.body
  loose := h.loose
  inputs := h.inputs

/-! ### Coming back -/

/-- What `insertTx` inserts was not in the pool, nor anything in conflict with it. -/
theorem enters_of_insertTx {entry : CTxMemPoolEntry}
    (h : s.insertTx usage mu entry = some (.ok true, s')) : s.Enters entry := by
  unfold insertTx at h
  split at h
  · cases h
  · next hex =>
    cases hc : s.checkInputs usage entry.tx.prevouts with
    | mk res s₁ =>
      obtain ⟨-, hok, -⟩ := checkInputs_spec hc
      rw [hc] at h
      match res, hok with
      | .ok true, hok => exact ⟨by simpa using hex, hok rfl⟩
      | .ok false, _ => cases h
      | .error e, _ => cases h

theorem tx_of_checkTransaction {nTime : ℤ} {nUsageSize : ℕ} {blockHeight : ℤ}
    {entry : CTxMemPoolEntry}
    (h : TxValidationState.checkTransaction s tx nTime nUsageSize blockHeight = .ok entry) :
    entry.tx = tx ∧ entry.nTime = nTime ∧ entry.nUsageSize = nUsageSize := by
  obtain ⟨-, -, -, -, nFee, spends, rfl⟩ := TxValidationState.of_checkTransaction h
  exact ⟨rfl, rfl, rfl⟩

variable (usage) (mu) (blockHeight : ℤ) (verdict : ℕ → Verdict)

/-- **One transaction comes back**, or is refused. -/
theorem Waiting.revalidate (hw : Waiting body U reverted E pending s)
    (hbody : body tx.hash = tx) (horphan : Orphaned U s tx.hash) (calls : ℕ) :
    ∃ acc, revalidate usage mu blockHeight verdict (calls, s) tx = some acc ∧
      Waiting body U reverted E pending acc.2 ∧ Grows U s acc.2 := by
  unfold CTxMemPool.revalidate
  simp only
  split
  · exact ⟨_, rfl, hw, .of_eq rfl⟩
  · cases hcheck : TxValidationState.checkTransaction s tx (verdict calls).nTime
        (verdict calls).nUsageSize blockHeight with
    | error e => exact ⟨_, rfl, hw, .of_eq rfl⟩
    | ok entry =>
      obtain ⟨htx, htime, husage⟩ := tx_of_checkTransaction hcheck
      have hcheck' : TxValidationState.checkTransaction s entry.tx entry.nTime entry.nUsageSize
          blockHeight = .ok entry := by
        rw [htx, htime, husage]
        exact hcheck
      obtain ⟨-, hloose, -⟩ := TxValidationState.of_checkTransaction hcheck
      simp only
      by_cases henters : s.Enters entry
      · have hnew := value_of_checkTransaction hcheck' henters.1
        rw [hw.value, htx] at hnew
        have habsent : s.hasTx tx.hash = false := by
          rw [← htx]
          exact henters.1
        -- nothing in the pool spends from it
        have hchildless : ∀ c tx', s.txAt c = some tx' → ∀ o ∈ tx'.prevouts,
            o.hash ≠ entry.tx.hash := by
          intro c tx' hc o ho hhash
          rw [htx] at hhash
          obtain ⟨d, hd, -⟩ := horphan habsent c tx' hc o ho hhash
          rw [hhash, hnew] at hd
          cases hd
        have hadd := addable_of_childless hcheck' henters hchildless
        obtain ⟨s₁, hinsert, hwf₁, hval₁, hg₁, hcore⟩ :=
          insertTx_of_addable usage mu hw.wf hw.graph hcheck' hadd
        have hadded : TxAdded s entry.tx s₁ := txAdded_of_core hcore
        have hin₁ : s₁.hasTx tx.hash = true := by
          apply hasTx_of_txAt
          exact (hadded tx.hash).trans (if_pos (by rw [htx]))
        obtain ⟨s₂, hupdate, hg₂, hframe⟩ := updateTransactionsFromBlock_of_childless mu
          hg₁ hin₁ fun c => by
            rw [← htx]
            exact hadd.not_spendsFrom hadded c
        have hadded₂ : TxAdded s tx s₂ := by
          intro x
          rw [hframe.txAt, ← htx]
          exact hadded x
        have hkeep : ∀ x tx', s.txAt x = some tx' → s₂.txAt x = some tx' := by
          intro x tx' hx
          rw [hadded₂, if_neg, hx]
          rintro rfl
          have hhas := hasTx_of_txAt hx
          rw [habsent] at hhas
          cases hhas
        have hbacked : ∀ o ∈ tx.prevouts, Backed U s o := by
          intro o ho
          rw [← hw.value]
          exact backed_of_checkTransaction hcheck ho
        refine ⟨(calls + 1, s₂), ?_, ⟨hg₂, ?_, ?_, ?_, ?_, ?_⟩, ⟨hkeep, ?_, ?_⟩⟩
        · simp only [hinsert, Option.bind_eq_bind, Option.bind_some, hupdate]
        · rw [hframe.coins]
          exact hwf₁
        · rw [hframe.coins, hval₁]
          exact hw.value
        · intro x tx' hx
          rcases hadded₂.cases hx with ⟨rfl, rfl⟩ | ⟨-, hx⟩
          · exact hbody
          · exact hw.body x tx' hx
        · intro x tx' hx
          rcases hadded₂.cases hx with ⟨rfl, rfl⟩ | ⟨-, hx⟩
          · exact hloose
          · exact hw.loose x tx' hx
        · intro x tx' hx o ho
          rcases hadded₂.cases hx with ⟨rfl, rfl⟩ | ⟨-, hx⟩
          · exact .inl ((hbacked o ho).of_keep hkeep)
          · rcases hw.inputs x tx' hx o ho with hback | ⟨hrev, hex | hdoomed⟩
            · exact .inl (hback.of_keep hkeep)
            · exact .inr ⟨hrev, .inl hex⟩
            · exact .inr ⟨hrev, .inr (hdoomed.of_keep hkeep)⟩
        · intro x p hx hspends
          rw [hframe.spendsFrom, hadd.spendsFrom hadded] at hspends
          rcases hspends with hspends | ⟨rfl, -⟩
          · exact hspends
          · rw [henters.1] at hx
            cases hx
        · intro x hx hnone c tx' hc o ho hhash
          have hnone₀ : s.hasTx x = false := by
            rw [Bool.eq_false_iff]
            intro hhas
            obtain ⟨tx₀, htx₀⟩ := exists_txAt hhas
            have hhas₂ := hasTx_of_txAt (hkeep x tx₀ htx₀)
            rw [hnone] at hhas₂
            cases hhas₂
          rcases hadded₂.cases hc with ⟨rfl, rfl⟩ | ⟨-, hc⟩
          · rcases hbacked o ho with ⟨tx₀, htx₀, -⟩ | hun
            · rw [hhash] at htx₀
              have hhas := hasTx_of_txAt htx₀
              rw [hnone₀] at hhas
              cases hhas
            · exact hun
          · exact hx hnone₀ c tx' hc o ho hhash
      · obtain ⟨r, view, hinsert, hvwf, hval⟩ := insertTx_of_not_enters usage mu hw.wf henters
        have hrefused : r ≠ .ok true := by
          rintro rfl
          exact henters (enters_of_insertTx hinsert)
        refine ⟨(calls + 1, { s with coins := view }), ?_, hw.withCoins hvwf hval, .of_eq rfl⟩
        simp only [hinsert, Option.bind_eq_bind, Option.bind_some]

/-- Several transactions come back. -/
theorem Waiting.revalidateAll : ∀ {txs : List CTransaction} {s : CTxMemPool} (calls : ℕ),
    Waiting body U reverted E pending s → (∀ tx ∈ txs, body tx.hash = tx) →
    (∀ tx ∈ txs, Orphaned U s tx.hash) →
    ∃ acc, txs.foldlM (CTxMemPool.revalidate usage mu blockHeight verdict) (calls, s) = some acc ∧
      Waiting body U reverted E pending acc.2 ∧ Grows U s acc.2 := by
  intro txs
  induction txs with
  | nil =>
    intro s calls hw _ _
    exact ⟨(calls, s), rfl, hw, .of_eq rfl⟩
  | cons tx txs ih =>
    intro s calls hw hbody horphan
    obtain ⟨⟨calls₁, s₁⟩, hone, hw₁, hgrows₁⟩ := hw.revalidate usage mu blockHeight
      verdict (hbody tx List.mem_cons_self) (horphan tx List.mem_cons_self) calls
    obtain ⟨acc, hrest, hw', hgrows'⟩ := ih calls₁ hw₁
      (fun tx' htx' => hbody tx' (List.mem_cons_of_mem tx htx'))
      fun tx' htx' => hgrows₁.orphaned _ (horphan tx' (List.mem_cons_of_mem tx htx'))
    refine ⟨acc, ?_, hw', hgrows₁.trans hgrows'⟩
    rw [List.foldlM_cons, hone]
    exact hrest

/-! ### Leaving before that -/

/-- What is or spends the transaction leaves with it. -/
theorem exists_root_of_touches {a : Uint256} {tx' : CTransaction} (hs : NextExact s)
    (ha : s.txAt a = some tx) (h : tx.Touches tx') :
    ∃ y, s.Roots tx' y ∧ Relation.ReflTransGen s.SpendsFrom a y := by
  have hhash := hs.hash a tx ha
  by_cases hin : s.hasTx tx'.hash = true
  · refine ⟨tx'.hash, ?_, ?_⟩
    · rw [Roots, if_pos hin]
    · rcases h with h | ⟨o, ho, hout, -⟩
      · rw [← hhash, h]
      · exact .single ⟨tx, ha, hin, o, ho, hout⟩
  · refine ⟨a, ?_, .refl⟩
    rw [Roots, if_neg hin]
    rcases h with h | ⟨o, ho, hout⟩
    · rw [← h, hhash] at hin
      exact absurd (hasTx_of_txAt ha) hin
    · exact ⟨tx, ha, o, ho, hout⟩

theorem touches_of_roots {y : Uint256} (hs : NextExact s) (h : s.Roots tx y) :
    ∃ tx', s.txAt y = some tx' ∧ tx'.Touches tx := by
  unfold Roots at h
  split at h
  · next hin =>
    obtain ⟨tx', htx'⟩ := exists_txAt hin
    subst h
    exact ⟨tx', htx', .inl (hs.hash _ _ htx')⟩
  · obtain ⟨tx', hy, o, ho, hout⟩ := h
    exact ⟨tx', hy, .inr ⟨o, ho, hout⟩⟩

theorem Backed.shrinks (hs : Shrinks s v) {x : Uint256} (hx : v.txAt x = some tx)
    (ho : o ∈ tx.prevouts) (h : Backed U s o) : Backed U v o := by
  rcases h with ⟨tx', htx', hav⟩ | hun
  · left
    have hp : v.hasTx o.hash = true := hs.parents x o.hash (hasTx_of_txAt hx)
      ⟨tx, hs.sub x tx hx, hasTx_of_txAt htx', o, ho, rfl⟩
    obtain ⟨tx'', htx''⟩ := exists_txAt hp
    obtain rfl : tx' = tx'' := Option.some.inj (htx'.symm.trans (hs.sub _ _ htx''))
    exact ⟨tx', htx'', hav⟩
  · exact .inr hun

/-- What stays keeps its ancestors. -/
theorem Shrinks.path (hs : Shrinks s v) {x a : Uint256} (hx : v.hasTx x = true)
    (h : Relation.ReflTransGen s.SpendsFrom x a) :
    v.hasTx a = true ∧ Relation.ReflTransGen v.SpendsFrom x a := by
  induction h with
  | refl => exact ⟨hx, .refl⟩
  | @tail b c _ hbc ih =>
    have hc := hs.parents b c ih.1 hbc
    obtain ⟨tx, hb, -, ho⟩ := hbc
    obtain ⟨tx', hb'⟩ := exists_txAt ih.1
    obtain rfl : tx = tx' := Option.some.inj (hb.symm.trans (hs.sub _ _ hb'))
    exact ⟨hc, ih.2.tail ⟨tx, hb', hc, ho⟩⟩

theorem Shrinks.spendsFrom (hs : Shrinks s v) {c p : Uint256} (h : v.SpendsFrom c p) :
    s.SpendsFrom c p := by
  obtain ⟨tx, hc, hp, ho⟩ := h
  exact ⟨tx, hs.sub c tx hc, hs.hasTx hp, ho⟩

/-- **A transaction and what spends from it leave.** -/
theorem Waiting.removed (hw : Waiting body U reverted E (tx :: pending) s) {R : SetEntries}
    (hg : Graph v) (hrem : Removed s R v) (hclosed : DownClosed s R)
    (hR : ∀ x, x ∈ R ↔ ∃ y, s.Roots tx y ∧ Relation.ReflTransGen s.SpendsFrom x y) :
    Waiting body U reverted E pending v where
  graph := hg
  wf := by
    rw [hrem.coins]
    exact hw.wf
  value := by
    rw [hrem.coins]
    exact hw.value
  body x tx' hx := hw.body x tx' ((hrem.shrinks hclosed).sub x tx' hx)
  loose x tx' hx := hw.loose x tx' ((hrem.shrinks hclosed).sub x tx' hx)
  inputs x tx₀ hx o ho := by
    have hsh := hrem.shrinks hclosed
    rcases hw.inputs x tx₀ (hsh.sub x tx₀ hx) o ho with hback | ⟨hrev, hex | hdoomed⟩
    · exact .inl (hback.shrinks hsh hx ho)
    · exact .inr ⟨hrev, .inl hex⟩
    · obtain ⟨a, tx₁, hpath, ha, tx', htx', htouch⟩ := hdoomed
      rcases List.mem_cons.mp htx' with rfl | htx'
      · -- it would have left
        obtain ⟨y, hy, hay⟩ := exists_root_of_touches hw.graph.next ha htouch
        have hxR := (hR x).mpr ⟨y, hy, hpath.trans hay⟩
        exact absurd hxR (hrem.hasTx.mp (hasTx_of_txAt hx)).2
      · obtain ⟨hain, hpath'⟩ := hsh.path (hasTx_of_txAt hx) hpath
        obtain ⟨tx₂, ha₂⟩ := exists_txAt hain
        obtain rfl : tx₁ = tx₂ := Option.some.inj (ha.symm.trans (hsh.sub _ _ ha₂))
        exact .inr ⟨hrev, .inr ⟨a, tx₁, hpath', ha₂, tx', htx', htouch⟩⟩

/-- Entries that stay: with an entry, what it spends from. -/
structure Kept (body : Uint256 → CTransaction) (G : Uint256 → Prop) (s : CTxMemPool) : Prop where
  present : ∀ x, G x → s.txAt x = some (body x)
  closed : ∀ x p, G x → s.SpendsFrom x p → G p

theorem Kept.path {G : Uint256 → Prop} (h : Kept body G s) {x a : Uint256} (hx : G x)
    (hpath : Relation.ReflTransGen s.SpendsFrom x a) : G a := by
  induction hpath with
  | refl => exact hx
  | tail _ hbc ih => exact h.closed _ _ ih hbc

theorem Kept.removed {G : Uint256 → Prop} (h : Kept body G s) (hs : NextExact s) {R : SetEntries}
    (hrem : Removed s R v) (hclosed : DownClosed s R)
    (hR : ∀ x, x ∈ R ↔ ∃ y, s.Roots tx y ∧ Relation.ReflTransGen s.SpendsFrom x y)
    (hapart : ∀ x, G x → ¬ (body x).Touches tx) : Kept body G v where
  present x hx := by
    rw [hrem.txAt, if_neg, h.present x hx]
    intro hxR
    obtain ⟨y, hroot, hpath⟩ := (hR x).mp hxR
    have hy := h.path hx hpath
    obtain ⟨tx', hy', htouch⟩ := touches_of_roots hs hroot
    obtain rfl := Option.some.inj ((h.present y hy).symm.trans hy')
    exact hapart y hy htouch
  closed x p hx hxp := h.closed x p hx ((hrem.shrinks hclosed).spendsFrom hxp)

theorem Kept.grows {G : Uint256 → Prop} (h : Kept body G s) (hg : Grows U s s') :
    Kept body G s' where
  present x hx := hg.keep x _ (h.present x hx)
  closed x p hx hxp := h.closed x p hx (hg.parents x p (hasTx_of_txAt (h.present x hx)) hxp)

/-! ### All of them -/

/-- **A transaction of a block comes back**, and what spent from it. -/
theorem Waiting.readdTx (hw : Waiting body U reverted E (tx :: pending) s)
    (hbody : ∀ tx' ∈ reverted, body tx'.hash = tx') (htx : tx ∈ reverted) (calls : ℕ) :
    ∃ acc, CTxMemPool.readdTx usage mu blockHeight verdict (calls, s) tx = some acc ∧
      Waiting body U reverted E pending acc.2 ∧
      ∀ G, Kept body G s → (∀ x, G x → ¬ (body x).Touches tx) → Kept body G acc.2 := by
  obtain ⟨deps, R, v, hremove, hg, hrem, hclosed, hR, hdeps⟩ := remove_spec mu hw.graph tx
  have hw' := hw.removed hg hrem hclosed hR
  have hsh := hrem.shrinks hclosed
  have horphan : ∀ tx' ∈ tx :: deps, Orphaned U v tx'.hash := by
    intro tx' htx' hnone c tx₀ hc o ho hhash
    rcases List.mem_cons.mp htx' with rfl | htx'
    · rcases hw'.inputs c tx₀ hc o ho with (⟨tx₁, htx₁, -⟩ | hun) | ⟨⟨tx₁, htx₁, hout⟩, -⟩
      · rw [hhash] at htx₁
        have hhas := hasTx_of_txAt htx₁
        rw [hnone] at hhas
        cases hhas
      · exact hun
      · -- it spends an output of the transaction, and would have left
        obtain rfl : tx₁ = tx' := by
          rw [← hbody tx₁ htx₁, ← hbody tx' htx, ← hout.1, hhash]
        obtain ⟨y, hy, hcy⟩ := exists_root_of_touches hw.graph.next (hsh.sub c tx₀ hc)
          (.inr ⟨o, ho, hout⟩)
        exact absurd ((hR c).mpr ⟨y, hy, hcy⟩) (hrem.hasTx.mp (hasTx_of_txAt hc)).2
    · obtain ⟨hdR, hd⟩ := hdeps tx' htx'
      have hcd : s.SpendsFrom c tx'.hash :=
        ⟨tx₀, hsh.sub c tx₀ hc, hasTx_of_txAt hd, o, ho, hhash⟩
      exact absurd (hclosed c _ hdR hcd) (hrem.hasTx.mp (hasTx_of_txAt hc)).2
  have hbodies : ∀ tx' ∈ tx :: deps, body tx'.hash = tx' := by
    intro tx' htx'
    rcases List.mem_cons.mp htx' with rfl | htx'
    · exact hbody tx' htx
    · exact hw.body _ _ (hdeps tx' htx').2
  obtain ⟨acc, hrun, hw'', hgrows⟩ := hw'.revalidateAll usage mu blockHeight verdict
    calls hbodies horphan
  refine ⟨acc, ?_, hw'', fun G hG hapart => ?_⟩
  · simp only [CTxMemPool.readdTx, hremove, Option.bind_eq_bind, Option.bind_some, hrun]
  · exact (hG.removed hw.graph.next hrem hclosed hR hapart).grows hgrows

/-- The transactions of a block come back. -/
theorem Waiting.readdTxs (hbody : ∀ tx' ∈ reverted, body tx'.hash = tx') :
    ∀ {txs : List CTransaction} {s : CTxMemPool} (calls : ℕ),
    Waiting body U reverted E (txs ++ pending) s → (∀ tx ∈ txs, tx ∈ reverted) →
    ∃ acc, txs.foldlM (CTxMemPool.readdTx usage mu blockHeight verdict) (calls, s) = some acc ∧
      Waiting body U reverted E pending acc.2 ∧
      ∀ G, Kept body G s → (∀ tx ∈ txs, ∀ x, G x → ¬ (body x).Touches tx) →
        Kept body G acc.2 := by
  intro txs
  induction txs with
  | nil =>
    intro s calls hw _
    exact ⟨(calls, s), rfl, hw, fun G hG _ => hG⟩
  | cons tx txs ih =>
    intro s calls hw hin
    obtain ⟨⟨calls₁, s₁⟩, hone, hw₁, hkept₁⟩ := hw.readdTx usage mu blockHeight verdict hbody
      (hin tx List.mem_cons_self) calls
    obtain ⟨acc, hrest, hw', hkept'⟩ := ih calls₁ hw₁
      fun tx' htx' => hin tx' (List.mem_cons_of_mem tx htx')
    refine ⟨acc, ?_, hw', fun G hG hapart => hkept' G ?_ ?_⟩
    · rw [List.foldlM_cons, hone]
      exact hrest
    · exact hkept₁ G hG (hapart tx List.mem_cons_self)
    · exact fun tx' htx' => hapart tx' (List.mem_cons_of_mem tx htx')

/-- The transactions that the loop over blocks adds again. -/
def comingBack (blocks : List StoredBlock) : List CTransaction :=
  blocks.flatMap fun b => b.vtx.tail

/-- **The transactions of all blocks come back.** -/
theorem Waiting.readdBlocks (hbody : ∀ tx' ∈ reverted, body tx'.hash = tx') :
    ∀ {blocks : List StoredBlock} {s : CTxMemPool} (calls : ℕ),
    Waiting body U reverted E (comingBack blocks) s →
    (∀ tx ∈ comingBack blocks, tx ∈ reverted) →
    ∃ acc, blocks.foldlM (fun acc b =>
        b.vtx.tail.foldlM (CTxMemPool.readdTx usage mu blockHeight verdict) acc) (calls, s)
        = some acc ∧
      Waiting body U reverted E [] acc.2 ∧
      ∀ G, Kept body G s → (∀ tx ∈ comingBack blocks, ∀ x, G x → ¬ (body x).Touches tx) →
        Kept body G acc.2 := by
  intro blocks
  induction blocks with
  | nil =>
    intro s calls hw _
    exact ⟨(calls, s), rfl, hw, fun G hG _ => hG⟩
  | cons b blocks ih =>
    intro s calls hw hin
    rw [comingBack, List.flatMap_cons] at hw
    have hleft : ∀ tx ∈ b.vtx.tail, tx ∈ comingBack (b :: blocks) := by
      intro tx htx
      rw [comingBack, List.flatMap_cons]
      exact List.mem_append_left _ htx
    have hright : ∀ tx ∈ comingBack blocks, tx ∈ comingBack (b :: blocks) := by
      intro tx htx
      rw [comingBack, List.flatMap_cons]
      exact List.mem_append_right _ htx
    obtain ⟨⟨calls₁, s₁⟩, hone, hw₁, hkept₁⟩ := hw.readdTxs usage mu blockHeight verdict hbody
      calls fun tx htx => hin tx (hleft tx htx)
    obtain ⟨acc, hrest, hw', hkept'⟩ := ih calls₁ hw₁
      fun tx htx => hin tx (hright tx htx)
    refine ⟨acc, ?_, hw', fun G hG hapart => hkept' G ?_ ?_⟩
    · rw [List.foldlM_cons, hone]
      exact hrest
    · exact hkept₁ G hG fun tx htx => hapart tx (hleft tx htx)
    · exact fun tx htx => hapart tx (hright tx htx)

/-! ## Taking out what is not final or not mature -/

/-- `removeForReorg` starts from the entry.  The coins of the pool have `left`. -/
def Dropped (final : CTransaction → Bool) (left : Uint256 → Option CCoins) (nMemPoolHeight : ℤ)
    (s : CTxMemPool) (e : CTxMemPoolEntry) : Prop :=
  final e.tx = false ∨ (e.spendsCoinbase = true ∧ ∃ o ∈ e.tx.prevouts, s.hasTx o.hash = false ∧
    ∀ c, left o.hash = some c →
      c.fCoinBase = true ∧ nMemPoolHeight - c.nHeight.toInt < coinbaseMaturity)

theorem spendsImmature_iff (s : CTxMemPool) (nMemPoolHeight : ℤ) : ∀ (ps : List COutPoint)
    (view : CCoinsView),
    ((s.spendsImmature usage nMemPoolHeight ps view).1 = true ↔
      ∃ o ∈ ps, s.hasTx o.hash = false ∧ ∀ c, view.lookup o.hash = some c →
        c.fCoinBase = true ∧ nMemPoolHeight - c.nHeight.toInt < coinbaseMaturity) ∧
    (s.spendsImmature usage nMemPoolHeight ps view).2.lookup = view.lookup := by
  intro ps
  induction ps with
  | nil =>
    intro view
    exact ⟨by simp [spendsImmature], rfl⟩
  | cons o ps ih =>
    intro view
    have hlookup := funext fun t => CCoinsView.lookup_getCoins usage view o.hash t
    have hfst := CCoinsView.getCoins_fst usage view o.hash
    rw [spendsImmature]
    by_cases hin : s.hasTx o.hash = true
    · rw [if_pos hin]
      obtain ⟨hiff, hview⟩ := ih view
      refine ⟨?_, hview⟩
      rw [hiff]
      simp [hin]
    · rw [if_neg hin]
      rw [Bool.not_eq_true] at hin
      cases hget : view.getCoins usage o.hash with
      | mk c view₁ =>
        rw [hget] at hlookup hfst
        cases c with
        | none =>
          refine ⟨?_, hlookup⟩
          simp only [true_iff]
          refine ⟨o, List.mem_cons_self, hin, fun c hc => ?_⟩
          rw [← hfst] at hc
          cases hc
        | some coins =>
          simp only at hlookup hfst ⊢
          by_cases himm : coins.fCoinBase = true ∧
              nMemPoolHeight - coins.nHeight.toInt < coinbaseMaturity
          · rw [if_pos himm]
            refine ⟨?_, hlookup⟩
            simp only [true_iff]
            refine ⟨o, List.mem_cons_self, hin, fun c hc => ?_⟩
            rw [← hfst] at hc
            obtain rfl := Option.some.inj hc
            exact himm
          · rw [if_neg himm]
            obtain ⟨hiff, hview⟩ := ih view₁
            refine ⟨?_, hview.trans hlookup⟩
            rw [hiff, hlookup]
            constructor
            · rintro ⟨p, hp, hrest⟩
              exact ⟨p, List.mem_cons_of_mem o hp, hrest⟩
            · rintro ⟨p, hp, hpin, hrest⟩
              rcases List.mem_cons.mp hp with rfl | hp
              · exact absurd (hrest coins hfst.symm) himm
              · exact ⟨p, hp, hpin, hrest⟩

theorem mem_reorgRemovals (s : CTxMemPool) (nMemPoolHeight : ℤ) (final : CTransaction → Bool) :
    ∀ (es : List CTxMemPoolEntry) (view : CCoinsView) (tx : CTransaction),
    tx ∈ (s.reorgRemovals usage nMemPoolHeight final es view).1 ↔
      ∃ e ∈ es, e.tx = tx ∧ Dropped final view.lookup nMemPoolHeight s e := by
  intro es
  induction es with
  | nil =>
    intro view tx
    simp [reorgRemovals]
  | cons e es ih =>
    intro view tx
    rw [reorgRemovals]
    simp only [List.mem_cons, exists_eq_or_imp, Dropped]
    by_cases hfinal : final e.tx = true
    · rw [if_neg (by simp [hfinal])]
      by_cases hcb : e.spendsCoinbase = true
      · rw [if_pos hcb]
        obtain ⟨hiff, hview⟩ := s.spendsImmature_iff usage nMemPoolHeight e.tx.prevouts view
        have hih := ih (s.spendsImmature usage nMemPoolHeight e.tx.prevouts view).2 tx
        rw [hview] at hih
        simp only [hfinal, hcb, true_and, Bool.true_eq_false, false_or, ← hiff]
        split
        · next himm =>
          rw [List.mem_cons, hih, himm]
          simp only [and_true, Dropped]
          rw [@eq_comm _ tx]
        · next himm =>
          rw [hih]
          simp [himm, Dropped]
      · rw [if_neg hcb, ih]
        simp [hfinal, hcb, Dropped]
    · rw [if_pos (by simpa using hfinal), List.mem_cons, ih]
      rw [Bool.not_eq_true] at hfinal
      simp only [hfinal, true_or, and_true, Dropped]
      rw [@eq_comm _ tx]

variable (body) in
/-- Recursive removals: all of them leave, and what they do not touch stays. -/
theorem removes_spec : ∀ (txs : List CTransaction) {s : CTxMemPool}, Graph s →
    ∃ v, txs.foldlM (fun s tx => (s.remove mu tx true).map Prod.snd) s = some v ∧ Graph v ∧
      Shrinks s v ∧ (∀ tx ∈ txs, v.hasTx tx.hash = false) ∧
      ∀ G, Kept body G s → (∀ tx ∈ txs, ∀ x, G x → ¬ (body x).Touches tx) → Kept body G v := by
  intro txs
  induction txs with
  | nil =>
    intro s hs
    exact ⟨s, rfl, hs, Shrinks.refl s, by simp, fun G hG _ => hG⟩
  | cons tx txs ih =>
    intro s hs
    obtain ⟨removed, R, v₁, hremove, hg₁, hrem, hclosed, hR, -⟩ := remove_spec mu hs tx
    obtain ⟨v, hrest, hg, hsh, hgone, hkept⟩ := ih hg₁
    have hgone₁ : v₁.hasTx tx.hash = false := by
      rw [Bool.eq_false_iff]
      intro hx
      obtain ⟨hx, hxR⟩ := hrem.hasTx.mp hx
      have hroot : s.Roots tx tx.hash := by
        rw [Roots, if_pos hx]
      exact hxR ((hR _).mpr ⟨_, hroot, .refl⟩)
    refine ⟨v, ?_, hg, (hrem.shrinks hclosed).trans hsh, fun tx' htx' => ?_,
      fun G hG hapart => hkept G ?_ ?_⟩
    · rw [List.foldlM_cons, hremove]
      exact hrest
    · rcases List.mem_cons.mp htx' with rfl | htx'
      · rw [Bool.eq_false_iff]
        intro hx
        rw [hsh.hasTx hx] at hgone₁
        cases hgone₁
      · exact hgone tx' htx'
    · exact hG.removed hs.next hrem hclosed hR (hapart tx List.mem_cons_self)
    · exact fun tx' htx' => hapart tx' (List.mem_cons_of_mem tx htx')

variable (body) in
/-- **`removeForReorg`**: what it starts from leaves, and what does not spend from that stays. -/
theorem removeForReorg_spec (hwf : s.coins.Wf) (hs : Graph s) (nMemPoolHeight : ℤ)
    (final : CTransaction → Bool) :
    ∃ view v, s.removeForReorg usage mu nMemPoolHeight final = some v ∧ view.Wf ∧
      view.value = s.coins.value ∧ Graph v ∧ Shrinks { s with coins := view } v ∧
      (∀ a e, s.mapTx.lookup a = some e → Dropped final s.coins.lookup nMemPoolHeight s e →
        v.hasTx a = false) ∧
      ∀ G, Kept body G s → (∀ a e, G a → s.mapTx.lookup a = some e →
        ¬ Dropped final s.coins.lookup nMemPoolHeight s e) → Kept body G v := by
  have hmem := s.mem_reorgRemovals usage nMemPoolHeight final (s.mapTx.entries.map Sigma.snd)
    s.coins
  have hentries : ∀ e, e ∈ s.mapTx.entries.map Sigma.snd ↔ ∃ a, s.mapTx.lookup a = some e := by
    intro e
    simp only [← Option.mem_def, AList.mem_lookup_iff, List.mem_map]
    constructor
    · rintro ⟨⟨a, e'⟩, h, rfl⟩
      exact ⟨a, h⟩
    · rintro ⟨a, h⟩
      exact ⟨⟨a, e⟩, h, rfl⟩
  obtain ⟨hvwf, hval⟩ := s.reorgRemovals_view usage nMemPoolHeight final
    (s.mapTx.entries.map Sigma.snd) hwf
  cases hrem : s.reorgRemovals usage nMemPoolHeight final (s.mapTx.entries.map Sigma.snd)
      s.coins with
  | mk txs view =>
    rw [hrem] at hmem hvwf hval
    have hs₁ : Graph { s with coins := view } := hs.of_eq rfl rfl rfl fun _ _ => rfl
    obtain ⟨v, hrun, hg, hsh, hgone, hkept⟩ := removes_spec mu body txs hs₁
    refine ⟨view, v, ?_, hvwf, hval, hg, hsh, fun a e ha hdrop => ?_, fun G hG hapart => ?_⟩
    · rw [removeForReorg, hrem]
      exact hrun
    · have hin := hgone e.tx ((hmem e.tx).mpr ⟨e, (hentries e).mpr ⟨a, ha⟩, rfl, hdrop⟩)
      have htx : s.txAt a = some e.tx := by
        rw [txAt, ha]
        rfl
      rwa [hs.next.hash a e.tx htx] at hin
    · refine hkept G ⟨hG.present, hG.closed⟩ fun tx htx x hx htouch => ?_
      obtain ⟨e, he, rfl, hdrop⟩ := (hmem tx).mp htx
      obtain ⟨a, ha⟩ := (hentries e).mp he
      have htx : s.txAt a = some e.tx := by
        rw [txAt, ha]
        rfl
      have hhash := hs.next.hash a e.tx htx
      have hGa : G a := by
        rcases htouch with h | ⟨o, ho, hout, -⟩
        · rw [hs.next.hash x _ (hG.present x hx), hhash] at h
          rw [← h]
          exact hx
        · apply hG.closed x a hx
          exact ⟨body x, hG.present x hx, hasTx_of_txAt htx, o, ho, hout.trans hhash⟩
      exact hapart a e hGa ha hdrop

/-! ## The whole reorg -/

/-- The index and the links of the pool are exact, and every input is an output of the pool or
an unspent coin. -/
structure Consistent (U : Uint256 → Option CCoins) (s : CTxMemPool) : Prop where
  graph : Graph s
  inputs : ∀ h tx, s.txAt h = some tx → ∀ o ∈ tx.prevouts, Backed U s o

/-- The coins that the pool finds after the flush, if the coins at the new tip are `U'`. -/
def coinsLeft (U' : Uint256 → Option CCoins) (s : CTxMemPool) (t : Uint256) : Option CCoins :=
  (U' t).or (s.coins.leftover t)

/-- The entry, or one that it spends from, is one that `removeForReorg` starts from, or is or
spends a transaction that comes back. -/
def Cured (final : CTransaction → Bool) (U' : Uint256 → Option CCoins) (nMemPoolHeight : ℤ)
    (bs : List StoredBlock) (s : CTxMemPool) (x : Uint256) : Prop :=
  ∃ a e, Relation.ReflTransGen s.SpendsFrom x a ∧ s.mapTx.lookup a = some e ∧
    (Dropped final (coinsLeft U' s) nMemPoolHeight s e ∨ ∃ tx ∈ comingBack bs, e.tx.Touches tx)

/-- The outpoint is of a coinbase of the blocks, and not unspent in `U'`. -/
def Vanished (U' : Uint256 → Option CCoins) (bs : List StoredBlock) (o : COutPoint) : Prop :=
  ¬ Unspent U' o ∧ ∃ b ∈ bs, ∃ tx ∈ b.vtx, tx.isCoinBase = true ∧ o.hash = tx.hash

variable {U' : Uint256 → Option CCoins} {bs : List StoredBlock}

theorem mem_comingBack {bs : List StoredBlock} :
    tx ∈ comingBack bs ↔ ∃ b ∈ bs, tx ∈ b.vtx.tail := List.mem_flatMap

/-- A transaction of a block that was connected comes back unless it is the coinbase. -/
theorem mem_tail_of_valid {b : StoredBlock} (hb : b.Valid) (htx : tx ∈ b.vtx)
    (hloose : tx.isCoinBase = false) : tx ∈ b.vtx.tail := by
  obtain ⟨coinbase, txs, hvtx, hcoinbase, -⟩ := hb.coinbase
  rw [hvtx] at htx ⊢
  rcases List.mem_cons.mp htx with rfl | htx
  · rw [hloose] at hcoinbase
    cases hcoinbase
  · exact htx

/-- Only the coins that inputs come from matter. -/
theorem dropped_congr (hs : Sound body s.coins.value s) {final : CTransaction → Bool}
    {left left' : Uint256 → Option CCoins} {nMemPoolHeight : ℤ}
    (hleft : ∀ t, s.coins.value t ≠ none → left t = left' t) {a : Uint256} {e : CTxMemPoolEntry}
    (he : s.mapTx.lookup a = some e) :
    Dropped final left nMemPoolHeight s e ↔ Dropped final left' nMemPoolHeight s e := by
  have htx : s.txAt a = some e.tx := by
    rw [txAt, he]
    rfl
  have hsame : ∀ o ∈ e.tx.prevouts, s.hasTx o.hash = false → left o.hash = left' o.hash := by
    intro o ho hnone
    rcases hs.inputs a e.tx htx o ho with ⟨tx', htx', -⟩ | ⟨d, hd, -⟩
    · have hin := hasTx_of_txAt htx'
      rw [hnone] at hin
      cases hin
    · apply hleft
      rw [hd]
      exact Option.some_ne_none d
  unfold Dropped
  refine or_congr_right (and_congr_right fun _ => exists_congr fun o => ?_)
  refine and_congr_right fun ho => and_congr_right fun hnone => ?_
  rw [hsame o ho hnone]

/-- The run, with the inputs that are excused. -/
theorem prepareChain_waiting (E : COutPoint → Prop) (final : CTransaction → Bool)
    (hwf : s.coins.Wf) (hs : Sound body s.coins.value s) (hbs : Connected usage U' bs s.coins.value)
    (hU' : CCoinsViewCache.UtxoOk U') (hbody : ∀ b ∈ bs, ∀ tx ∈ b.vtx, body tx.hash = tx)
    (hne : bs ≠ []) (hE : ∀ x tx, s.txAt x = some tx → ∀ o ∈ tx.prevouts, Vanished U' bs o →
      E o ∨ Cured final U' blockHeight bs s x) :
    ∃ s', s.prepareChain usage mu blockHeight verdict final bs = some s' ∧
      Waiting body U' (bs.flatMap StoredBlock.vtx) E [] s' ∧
      ∀ G, Kept body G s → (∀ x, G x → ¬ Cured final U' blockHeight bs s x) →
        Kept body G s' := by
  have hwf₀ : (CCoinsViewCache.create s.coins).view.Wf :=
    ⟨hwf, fun t e h => by cases h⟩
  have hval₀ : (CCoinsViewCache.create s.coins).view.value = s.coins.value := by
    funext t
    exact CCoinsView.value_cache_of_none rfl
  obtain ⟨w, hroll, hwwf, hwval⟩ := hbs.rollBack_spec hU' hwf₀ hval₀
  have hundone := CCoinsViewCache.Undone.rollBack hbs (CCoinsViewCache.Undone.create s.coins) hroll
  have hbase : w.base.value = s.coins.value := by
    funext t
    rw [CCoinsView.value, CCoinsView.value, hundone.filled.lookup]
  obtain ⟨⟨hfwf, -⟩, -, hfval, -⟩ := CCoinsViewCache.flush_spec usage hwwf
  have hleft : ∀ t, s.coins.value t ≠ none →
      (w.flush usage).base.lookup t = coinsLeft U' s t := by
    intro t ht
    rw [hundone.lookup_flush hwwf hbase ht, hwval, coinsLeft]
  generalize hflush : (w.flush usage).base = base at hfwf hfval hleft
  have hg₁ : Graph { s with coins := base } := hs.graph.of_eq rfl rfl rfl fun _ _ => rfl
  obtain ⟨view, v, hremove, hvwf, hval, hg, hsh, hgone, hkept⟩ :=
    removeForReorg_spec usage mu body hfwf hg₁ blockHeight final
  -- what waits now
  have hw : Waiting body U' (bs.flatMap StoredBlock.vtx) E (comingBack bs.reverse) v := by
    have hin : ∀ tx, tx ∈ comingBack bs → tx ∈ comingBack bs.reverse := by
      intro tx htx
      obtain ⟨b, hb, htx⟩ := mem_comingBack.mp htx
      exact mem_comingBack.mpr ⟨b, List.mem_reverse.mpr hb, htx⟩
    refine ⟨hg, ?_, ?_, fun x tx hx => ?_, fun x tx hx => ?_, fun x tx hx o ho => ?_⟩
    · rw [hsh.coins]
      exact hvwf
    · rw [hsh.coins]
      exact hval.trans (hfval.trans hwval)
    · exact hs.body x tx (hsh.sub x tx hx)
    · exact hs.loose x tx (hsh.sub x tx hx)
    · have hx₀ : s.txAt x = some tx := hsh.sub x tx hx
      by_cases hun' : Unspent U' o
      · exact .inl (.inr hun')
      rcases hs.inputs x tx hx₀ o ho with hpool | hun
      · exact .inl (Backed.shrinks hsh hx ho (.inl hpool))
      · rcases hbs.unspent hun with hun | ⟨b, hb, tx', htx', hhash, hlt⟩
        · exact absurd hun hun'
        refine .inr ⟨⟨tx', List.mem_flatMap.mpr ⟨b, hb, htx'⟩, hhash.symm, hlt⟩, ?_⟩
        cases hcb : tx'.isCoinBase with
        | false =>
          have hback := mem_comingBack.mpr ⟨b, hb, mem_tail_of_valid (hbs.valid b hb) htx' hcb⟩
          exact .inr ⟨x, tx, .refl, hx, tx', hin tx' hback, .inr ⟨o, ho, hhash.symm, hlt⟩⟩
        | true =>
          rcases hE x tx hx₀ o ho ⟨hun', b, hb, tx', htx', hcb, hhash.symm⟩ with hex |
            ⟨a, e, hpath, ha, hcured⟩
          · exact .inl hex
          · obtain ⟨hain, hpath'⟩ := hsh.path (hasTx_of_txAt hx) hpath
            rcases hcured with hdrop | ⟨tx₁, htx₁, htouch⟩
            · -- it would have left
              rw [hgone a e ha ((dropped_congr hs hleft ha).mpr hdrop)] at hain
              cases hain
            · obtain ⟨tx₂, hv⟩ := exists_txAt hain
              have ha₀ : s.txAt a = some tx₂ := hsh.sub a tx₂ hv
              rw [txAt, ha] at ha₀
              obtain rfl : e.tx = tx₂ := Option.some.inj ha₀
              exact .inr ⟨a, e.tx, hpath', hv, tx₁, hin tx₁ htx₁, htouch⟩
  have hreverted : ∀ tx ∈ bs.flatMap StoredBlock.vtx, body tx.hash = tx := by
    intro tx htx
    obtain ⟨b, hb, htx⟩ := List.mem_flatMap.mp htx
    exact hbody b hb tx htx
  obtain ⟨⟨calls, s'⟩, hrun, hw', hkept'⟩ := hw.readdBlocks usage mu blockHeight verdict hreverted
    0 (by
      intro tx htx
      obtain ⟨b, hb, htx⟩ := mem_comingBack.mp htx
      exact List.mem_flatMap.mpr ⟨b, List.mem_reverse.mp hb, List.mem_of_mem_tail htx⟩)
  refine ⟨s', ?_, hw', fun G hG hcured => ?_⟩
  · rw [prepareChain, if_neg (by simpa using hne)]
    simp only [hroll, Option.bind_eq_bind, Option.bind_some, hflush, hremove, hrun]
  · refine hkept' G (hkept G ⟨hG.present, hG.closed⟩ fun a e ha he hdrop => ?_)
      fun tx htx x hx htouch => ?_
    · exact hcured a ha ⟨a, e, .refl, he, .inl ((dropped_congr hs hleft he).mp hdrop)⟩
    · obtain ⟨e, he, htx'⟩ := Option.map_eq_some_iff.mp (hG.present x hx)
      obtain ⟨b, hb, htx⟩ := mem_comingBack.mp htx
      refine hcured x hx ⟨x, e, .refl, he, .inr ⟨tx, ?_, ?_⟩⟩
      · exact mem_comingBack.mpr ⟨b, List.mem_reverse.mp hb, htx⟩
      · rw [htx']
        exact htouch

/-- Where everything that spends a vanished coinbase leaves, the pool is consistent. -/
theorem prepareChain_of_cured (final : CTransaction → Bool)
    (hwf : s.coins.Wf) (hs : Sound body s.coins.value s) (hbs : Connected usage U' bs s.coins.value)
    (hU' : CCoinsViewCache.UtxoOk U') (hbody : ∀ b ∈ bs, ∀ tx ∈ b.vtx, body tx.hash = tx)
    (hcured : ∀ x tx, s.txAt x = some tx → ∀ o ∈ tx.prevouts, Vanished U' bs o →
      Cured final U' blockHeight bs s x) :
    ∃ s', s.prepareChain usage mu blockHeight verdict final bs = some s' ∧
      s'.coins.value = U' ∧ Consistent U' s' := by
  by_cases hne : bs = []
  · subst hne
    cases hbs with
    | nil => exact ⟨s, rfl, rfl, hs.graph, hs.inputs⟩
  · obtain ⟨s', hrun, hw, -⟩ := prepareChain_waiting usage mu blockHeight verdict (fun _ => False)
      final hwf hs hbs hU' hbody hne fun x tx hx o ho hv => .inr (hcured x tx hx o ho hv)
    refine ⟨s', hrun, hw.value, hw.graph, fun x tx hx o ho => ?_⟩
    rcases hw.inputs x tx hx o ho with hback | ⟨-, hex | hdoomed⟩
    · exact hback
    · exact hex.elim
    · obtain ⟨a, tx', -, -, tx₁, htx₁, -⟩ := hdoomed
      cases htx₁

/-- What spends a vanished coinbase and does not leave spoils the pool. -/
theorem prepareChain_of_not_cured (final : CTransaction → Bool)
    (hwf : s.coins.Wf) (hs : Sound body s.coins.value s) (hbs : Connected usage U' bs s.coins.value)
    (hU' : CCoinsViewCache.UtxoOk U') (hbody : ∀ b ∈ bs, ∀ tx ∈ b.vtx, body tx.hash = tx)
    {x : Uint256} (hx : s.txAt x = some tx) (ho : o ∈ tx.prevouts) (hv : Vanished U' bs o)
    (hcured : ¬ Cured final U' blockHeight bs s x) :
    ∃ s', s.prepareChain usage mu blockHeight verdict final bs = some s' ∧
      s'.coins.value = U' ∧ ¬ Consistent U' s' := by
  obtain ⟨hun, b, hb, coinbase, hin, hcb, hhash⟩ := hv
  obtain ⟨s', hrun, hw, hkept⟩ := prepareChain_waiting usage mu blockHeight verdict (fun _ => True)
    final hwf hs hbs hU' hbody (List.ne_nil_of_mem hb) fun _ _ _ _ _ _ => .inl trivial
  refine ⟨s', hrun, hw.value, fun hcons => ?_⟩
  -- all entries that are not cured stay
  have hG : Kept body (fun y => s.hasTx y = true ∧ ¬ Cured final U' blockHeight bs s y) s := by
    refine ⟨fun y hy => ?_, fun y p hy hyp => ⟨hyp.hasTx_right, fun hp => hy.2 ?_⟩⟩
    · obtain ⟨tx', htx'⟩ := exists_txAt hy.1
      rw [htx', hs.body y tx' htx']
    · obtain ⟨a, e, hpath, he, hwhy⟩ := hp
      exact ⟨a, e, .head hyp hpath, he, hwhy⟩
  have hstays := (hkept _ hG fun y hy => hy.2).present x ⟨hasTx_of_txAt hx, hcured⟩
  rw [hs.body x tx hx] at hstays
  rcases hcons.inputs x tx hstays o ho with ⟨tx', htx', -⟩ | hunspent
  · have hloose := hw.loose _ _ htx'
    rw [← hw.body _ _ htx', hhash, hbody b hb coinbase hin, hcb] at hloose
    cases hloose
  · exact hun hunspent

/-- **A reorg leaves the pool consistent** with the coins at the new tip exactly when every entry
that spends a vanished coinbase is cured. -/
theorem prepareChain_consistent_iff (final : CTransaction → Bool)
    (hwf : s.coins.Wf) (hs : Sound body s.coins.value s) (hbs : Connected usage U' bs s.coins.value)
    (hU' : CCoinsViewCache.UtxoOk U') (hbody : ∀ b ∈ bs, ∀ tx ∈ b.vtx, body tx.hash = tx) :
    ∃ s', s.prepareChain usage mu blockHeight verdict final bs = some s' ∧
      s'.coins.value = U' ∧
      (Consistent U' s' ↔ ∀ x tx, s.txAt x = some tx → ∀ o ∈ tx.prevouts, Vanished U' bs o →
        Cured final U' blockHeight bs s x) := by
  by_cases hcured : ∀ x tx, s.txAt x = some tx → ∀ o ∈ tx.prevouts, Vanished U' bs o →
      Cured final U' blockHeight bs s x
  · obtain ⟨s', hrun, hval, hcons⟩ := prepareChain_of_cured usage mu blockHeight verdict final hwf
      hs hbs hU' hbody hcured
    exact ⟨s', hrun, hval, fun _ => hcured, fun _ => hcons⟩
  · obtain ⟨x, hx⟩ := not_forall.mp hcured
    obtain ⟨tx, hx⟩ := not_forall.mp hx
    obtain ⟨htx, hx⟩ := not_forall.mp hx
    obtain ⟨o, hx⟩ := not_forall.mp hx
    obtain ⟨ho, hx⟩ := not_forall.mp hx
    obtain ⟨hv, hx⟩ := not_forall.mp hx
    obtain ⟨s', hrun, hval, hcons⟩ := prepareChain_of_not_cured usage mu blockHeight verdict final
      hwf hs hbs hU' hbody htx ho hv hx
    exact ⟨s', hrun, hval, fun h => absurd h hcons, fun h => absurd h hcured⟩

/-! ### A long reorg -/

/-- The coinbase of the block at height `k + 1`. -/
def minedCoinbase (k : ℕ) : CTransaction :=
  ⟨BitVec.ofNat 256 (1000 + k), 1, [CCoinsViewCache.coinbaseInput], [⟨50, [0x51]⟩], 0⟩

def minedBlock (k : ℕ) : StoredBlock := ⟨[minedCoinbase k], Int32.ofNat (k + 1), [], 0⟩

/-- The blocks up to height `n`, from the tip down. -/
def minedBlocks : ℕ → List StoredBlock
  | 0 => []
  | n + 1 => minedBlock n :: minedBlocks n

/-- The coins after these blocks. -/
def minedView : ℕ → CCoinsViewCache
  | 0 => CCoinsViewCache.overEmpty
  | n + 1 => ((minedView n).processBlock (fun _ => 0) (minedBlock n).vtx (minedBlock n).nHeight
      .checkDuplicateTxId).2

theorem toNat_minedCoinbase {k : ℕ} (hk : k < 1000) : (minedCoinbase k).hash.toNat = 1000 + k := by
  rw [minedCoinbase, BitVec.toNat_ofNat]
  exact Nat.mod_eq_of_lt (by omega)

theorem minedView_spec : ∀ {n : ℕ}, n < 1000 → (minedView n).view.Wf ∧
    Connected (fun _ => 0) (fun _ => none) (minedBlocks n) (minedView n).view.value ∧
    (∀ k < n, (minedView n).view.value (minedCoinbase k).hash
      = some (CCoins.fromTx (minedCoinbase k) (minedBlock k).nHeight)) ∧
    ∀ t : Uint256, t.toNat < 1000 ∨ 1000 + n ≤ t.toNat → (minedView n).view.value t = none := by
  intro n
  induction n with
  | zero =>
    intro _
    have hnone : CCoinsViewCache.overEmpty.view.value = fun _ => none := rfl
    refine ⟨CCoinsViewCache.wf_overEmpty, ?_, by simp, fun t _ => rfl⟩
    exact .nil
  | succ n ih =>
    intro hn
    obtain ⟨hwf, hconn, hsome, hnone⟩ := ih (by omega)
    have hfree := hnone (minedCoinbase n).hash (.inr (toNat_minedCoinbase (by omega)).ge)
    -- the coinbase is new
    have hcreate : ((minedView n).createCoins (fun _ => 0) (minedCoinbase n) (minedBlock n).nHeight
        .checkDuplicateTxId).1 = .ok () := by
      obtain ⟨c, hc, -, hres, -⟩ := CCoinsViewCache.modifyCoins_spec (fun _ => 0) hwf
        (minedCoinbase n).hash fun modifyCoin =>
          if ProcessBlockCheck.checkDuplicateTxId = .checkDuplicateTxId ∧
            ¬ modifyCoin.isPruned then ((.error "bad-txns-BIP30" : Except String Unit), modifyCoin)
          else (.ok (), CCoins.fromTx (minedCoinbase n) (minedBlock n).nHeight)
      rw [hfree, CCoins.norm_some_eq_none_iff] at hc
      rw [CCoinsViewCache.createCoins, hres, if_neg (by simp [hc])]
    cases hrun : (minedView n).createCoins (fun _ => 0) (minedCoinbase n) (minedBlock n).nHeight
        .checkDuplicateTxId with
    | mk r v =>
      rw [hrun] at hcreate
      obtain rfl : r = .ok () := hcreate
      obtain ⟨-, hwf', hval⟩ := CCoinsViewCache.createCoins_spec hwf hrun
      have hblock : (minedView n).processBlock (fun _ => 0) (minedBlock n).vtx
          (minedBlock n).nHeight .checkDuplicateTxId = (.ok ([[]], (minedBlock n).undo), v) := by
        show CCoinsViewCache.processBlock _ _ [minedCoinbase n] _ _ = _
        simp only [CCoinsViewCache.processBlock, hrun, CCoinsViewCache.processTransactions]
        rfl
      have hview : minedView (n + 1) = v := by
        rw [minedView, hblock]
      have hnorm : CCoins.norm (some (CCoins.fromTx (minedCoinbase n) (minedBlock n).nHeight))
          = some (CCoins.fromTx (minedCoinbase n) (minedBlock n).nHeight) := by
        have hav : (CCoins.fromTx (minedCoinbase n) (minedBlock n).nHeight).isAvailable 0 = true := by
          rw [CCoins.isAvailable_fromTx _ _ 0]
          rfl
        exact CCoins.norm_of_isAvailable hav
      rw [hview]
      refine ⟨hwf', .cons hconn ?_ hwf hblock, fun k hk => ?_, fun t ht => ?_⟩
      · have hheight : (minedBlock n).nHeight.toInt = (n + 1 : ℕ) :=
          Int32.toInt_ofNat_of_lt (by omega)
        refine ⟨fun tx htx o ho => ?_, fun hzero => ?_, minedCoinbase n, [], rfl, rfl, by simp⟩
        · obtain rfl : tx = minedCoinbase n := List.mem_singleton.mp htx
          obtain rfl := List.mem_singleton.mp ho
          rfl
        · rw [hzero] at hheight
          have : (0 : Int32).toInt = 0 := rfl
          omega
      · rw [hval, hnorm]
        rcases Nat.lt_succ_iff_lt_or_eq.mp hk with hk | rfl
        · rw [Function.update_of_ne, hsome k hk]
          intro hhash
          have hnat := congrArg BitVec.toNat hhash
          rw [toNat_minedCoinbase (by omega), toNat_minedCoinbase (by omega)] at hnat
          omega
        · exact Function.update_self _ _ _
      · rw [hval, Function.update_of_ne]
        · exact hnone t (by omega)
        · rintro rfl
          rw [toNat_minedCoinbase (by omega)] at ht
          omega

/-- It spends the first coinbase, and it has no lock time of any kind. -/
def spendingTx : CTransaction :=
  ⟨5, 2, [⟨⟨1000, 0⟩, [], LockTime.sequenceFinal⟩], [⟨50, [0x51]⟩], 0⟩

/-- The pool at height 100 with this transaction, over a cache that was just flushed. -/
def spendingPool : CTxMemPool where
  mapTx := AList.insert 5 (.ofTx spendingTx 0 0 0 true) ∅
  mapLinks := AList.insert 5 ⟨[], []⟩ ∅
  mapNextTx := AList.insert ⟨1000, 0⟩ ⟨spendingTx, 0⟩ ∅
  mapDeltas := ∅
  totalTxSize := spendingTx.serializeSize
  cachedInnerUsage := 0
  coins := ((minedView 100).flush fun _ => 0).view

def spendingBody (h : Uint256) : CTransaction :=
  if h = 5 then spendingTx else minedCoinbase (h.toNat - 1000)

theorem lookup_spendingPool (x : Uint256) : spendingPool.mapTx.lookup x
    = if x = 5 then some (CTxMemPoolEntry.ofTx spendingTx 0 0 0 true)
      else none := by
  rw [spendingPool]
  by_cases hx : x = 5
  · rw [if_pos hx, hx, AList.lookup_insert]
  · rw [if_neg hx, AList.lookup_insert_ne hx, AList.lookup_empty]

theorem txAt_spendingPool (x : Uint256) :
    spendingPool.txAt x = if x = 5 then some spendingTx else none := by
  rw [txAt, lookup_spendingPool]
  split
  · rfl
  · rfl

theorem not_spendsFrom_spendingPool (c p : Uint256) : ¬ spendingPool.SpendsFrom c p := by
  rintro ⟨tx, hc, hp, o, ho, rfl⟩
  rw [txAt_spendingPool] at hc
  split at hc
  · obtain rfl := Option.some.inj hc
    obtain rfl := List.mem_singleton.mp ho
    rw [hasTx_eq, txAt_spendingPool] at hp
    cases hp
  · cases hc

theorem sound_spendingPool : Sound spendingBody spendingPool.coins.value spendingPool := by
  obtain ⟨hwf, -, hsome, hnone⟩ := minedView_spec (n := 100) (by decide)
  obtain ⟨-, hval, -⟩ := CCoinsViewCache.flush_spec (fun _ => 0) hwf
  have hcoins : spendingPool.coins.value = (minedView 100).view.value := hval
  have hat : ∀ {x : Uint256} {tx : CTransaction}, spendingPool.txAt x = some tx →
      x = 5 ∧ tx = spendingTx := by
    intro x tx hx
    rw [txAt_spendingPool] at hx
    split at hx
    · next h => exact ⟨h, (Option.some.inj hx).symm⟩
    · cases hx
  have hentry : ∀ {x : Uint256} {e : CTxMemPoolEntry}, spendingPool.mapTx.lookup x = some e →
      e = .ofTx spendingTx 0 0 0 true := by
    intro x e hx
    rw [lookup_spendingPool] at hx
    split at hx
    · exact (Option.some.inj hx).symm
    · cases hx
  have hlinks : ∀ x, spendingPool.links x = ⟨[], []⟩ := by
    intro x
    rw [links, spendingPool]
    by_cases hx : x = 5
    · rw [hx, AList.lookup_insert]
      rfl
    · rw [AList.lookup_insert_ne hx, AList.lookup_empty]
      rfl
  have hnext : NextExact spendingPool := by
    refine ⟨fun x tx hx => ?_, fun x tx hx => ?_, fun o p => ?_⟩
    · obtain ⟨rfl, rfl⟩ := hat hx
      rfl
    · obtain ⟨rfl, rfl⟩ := hat hx
      exact List.nodup_singleton _
    · have hlookup : spendingPool.mapNextTx.lookup o
          = if o = ⟨1000, 0⟩ then some ⟨spendingTx, 0⟩ else none := by
        rw [spendingPool]
        by_cases ho : o = ⟨1000, 0⟩
        · rw [if_pos ho, ho, AList.lookup_insert]
        · rw [if_neg ho, AList.lookup_insert_ne ho, AList.lookup_empty]
      rw [hlookup]
      constructor
      · intro h
        split at h
        · next ho =>
          obtain rfl := Option.some.inj h
          subst ho
          exact ⟨txAt_spendingPool 5, rfl⟩
        · cases h
      · obtain ⟨ptx, n⟩ := p
        rintro ⟨htx, hn⟩
        obtain ⟨-, rfl⟩ := hat htx
        have hn' : [(⟨1000, 0⟩ : COutPoint)][n]? = some o := hn
        cases n with
        | zero =>
          obtain rfl := Option.some.inj hn'
          rfl
        | succ n => cases hn'
  have hedge := not_spendsFrom_spendingPool
  have hdesc : ∀ x, spendingPool.descendants x = ∅ := by
    intro x
    refine Finset.eq_empty_of_forall_notMem fun y hy => ?_
    obtain ⟨b, hb, -⟩ := Relation.TransGen.head'_iff.mp (mem_descendants.mp hy)
    exact hedge y b hb
  refine ⟨⟨hnext, fun x => ?_, fun c p => ?_, fun c p => ?_, fun x => ?_, fun x => ?_,
    fun x h => ?_, fun x e he => ?_, fun x e he => ?_, fun x e he => ?_⟩, fun x tx hx => ?_,
    fun x tx hx o ho => ?_, fun x tx hx => ?_, fun x tx hx => ?_⟩
  · rw [hasTx_eq, txAt_spendingPool, spendingPool]
    by_cases hx : x = 5
    · rw [hx, AList.lookup_insert, if_pos rfl]
      rfl
    · rw [AList.lookup_insert_ne hx, AList.lookup_empty, if_neg hx]
      rfl
  · rw [hlinks]
    simp [hedge]
  · rw [hlinks]
    simp [hedge]
  · rw [hlinks]
    exact List.nodup_nil
  · rw [hlinks]
    exact List.nodup_nil
  · obtain ⟨b, hb, -⟩ := Relation.TransGen.head'_iff.mp h
    exact hedge x b hb
  · obtain rfl := hentry he
    exact Nat.succ_pos _
  · obtain rfl := hentry he
    rfl
  · obtain rfl := hentry he
    rw [hdesc]
    exact ⟨rfl, rfl, rfl⟩
  · obtain ⟨rfl, rfl⟩ := hat hx
    rw [hcoins]
    exact hnone 5 (.inl (by decide))
  · obtain ⟨rfl, rfl⟩ := hat hx
    obtain rfl := List.mem_singleton.mp ho
    refine .inr ⟨_, (congrFun hcoins _).trans (hsome 0 (by decide)), ?_⟩
    rw [CCoins.isAvailable_fromTx _ _ 0]
    rfl
  · obtain ⟨rfl, rfl⟩ := hat hx
    rfl
  · obtain ⟨rfl, rfl⟩ := hat hx
    rfl

theorem wf_spendingPool : spendingPool.coins.Wf := by
  obtain ⟨hwf, -⟩ := minedView_spec (n := 100) (by decide)
  exact (CCoinsViewCache.flush_spec (fun _ => 0) hwf).1

theorem connected_spendingPool :
    Connected (fun _ => 0) (fun _ => none) (minedBlocks 100) spendingPool.coins.value := by
  obtain ⟨hwf, hconn, -⟩ := minedView_spec (n := 100) (by decide)
  obtain ⟨-, hval, -⟩ := CCoinsViewCache.flush_spec (fun _ => 0) hwf
  have hcoins : spendingPool.coins.value = (minedView 100).view.value := hval
  rw [hcoins]
  exact hconn

theorem mem_minedBlocks {b : StoredBlock} : ∀ {n : ℕ},
    b ∈ minedBlocks n ↔ ∃ k < n, b = minedBlock k := by
  intro n
  induction n with
  | zero => simp [minedBlocks]
  | succ n ih =>
    rw [minedBlocks, List.mem_cons, ih]
    constructor
    · rintro (rfl | ⟨k, hk, rfl⟩)
      · exact ⟨n, n.lt_succ_self, rfl⟩
      · exact ⟨k, hk.trans n.lt_succ_self, rfl⟩
    · rintro ⟨k, hk, rfl⟩
      rcases Nat.lt_succ_iff_lt_or_eq.mp hk with hk | rfl
      · exact .inr ⟨k, hk, rfl⟩
      · exact .inl rfl

theorem spendingBody_minedBlocks {n : ℕ} (hn : n ≤ 1000) :
    ∀ b ∈ minedBlocks n, ∀ tx ∈ b.vtx, spendingBody tx.hash = tx := by
  intro b hb tx htx
  obtain ⟨k, hk, rfl⟩ := mem_minedBlocks.mp hb
  obtain rfl : tx = minedCoinbase k := List.mem_singleton.mp htx
  have hnat := toNat_minedCoinbase (show k < 1000 by omega)
  rw [spendingBody, if_neg, hnat, Nat.add_sub_cancel_left]
  intro h
  rw [h] at hnat
  have : (5 : Uint256).toNat = 5 := rfl
  omega

theorem prepareChain_consistent_iff_spendingPool :
    ∃ s', spendingPool.prepareChain (fun _ => 0) ⟨0, 0, 0, 0, 0⟩ 1 (fun _ => ⟨false, 0, 0⟩)
        (fun _ => false) (minedBlocks 100) = some s' ∧
      s'.coins.value = (fun _ => none) ∧
      (Consistent (fun _ => none) s' ↔ ∀ x tx, spendingPool.txAt x = some tx →
        ∀ o ∈ tx.prevouts, Vanished (fun _ => none) (minedBlocks 100) o →
          Cured (fun _ => false) (fun _ => none) 1 (minedBlocks 100) spendingPool x) :=
  prepareChain_consistent_iff (fun _ => 0) ⟨0, 0, 0, 0, 0⟩ 1 (fun _ => ⟨false, 0, 0⟩)
    (fun _ => false) wf_spendingPool sound_spendingPool connected_spendingPool
    (fun t c h => by cases h) (spendingBody_minedBlocks (by decide))

section LockPoints

open LockTime Pow

/-- The times of the blocks. -/
def minedTime (n : ℕ) : UInt32 := UInt32.ofNat (600 * n)

/-- What the pool remembers with the spender: no input has a relative lock time, so nothing above
the first block of all matters. -/
def spendingPoints : LockPoints ℕ := ⟨-1, -1, some 0⟩

theorem checkSequenceLocks_spendingPool :
    checkSequenceLocks steadyChain minedTime spendingPool spendingTx standardLocktimeVerifyFlags
      (some ⟨0, 0, none⟩) false 100 = some (true, some spendingPoints) := by
  obtain ⟨hwf, -, hsome, -⟩ := minedView_spec (n := 100) (by decide)
  obtain ⟨-, hval, -⟩ := CCoinsViewCache.flush_spec (fun _ => 0) hwf
  have hcoins : spendingPool.coins.value 1000
      = some (CCoins.fromTx (minedCoinbase 0) (minedBlock 0).nHeight) :=
    (congrFun hval 1000).trans (hsome 0 (by decide))
  have hconf : ConfirmedAt steadyChain spendingPool (100 : ℕ) 1000 1 := by
    refine ⟨?_, by decide, _, hcoins, by decide⟩
    rw [txAt_spendingPool]
    rfl
  have hheight : prevHeight spendingPool ((steadyChain.nHeight (100 : ℕ) : ℤ) + 1)
      ⟨⟨1000, 0⟩, [], sequenceFinal⟩ = some (1 : ℤ) :=
    prevHeight_of_confirmedAt _ (by decide) hconf
  have hheights : prevHeights spendingPool ((steadyChain.nHeight (100 : ℕ) : ℤ) + 1)
      spendingTx.vin = some [1] := by
    rw [spendingTx, prevHeights, hheight]
    rfl
  have hlocks : calculateSequenceLocks (steadyChain.onTop (100 : ℕ)) (nTimeOnTop minedTime)
      spendingTx standardLocktimeVerifyFlags [1] none = some ((-1, -1), [0]) := rfl
  have hblock : steadyChain.getAncestorAt (100 : ℕ)
      (maxInputHeight ((steadyChain.nHeight (100 : ℕ) : ℤ) + 1) [0]) = some (0 : ℕ) := by
    rw [BlockIndex.getAncestorAt_eq]
    rfl
  rw [checkSequenceLocks, if_neg Bool.false_ne_true, hheights]
  simp only [hlocks, Option.bind_eq_bind, Option.bind_some, Option.map_some, hblock,
    evaluateSequenceLocks_onTop]
  rfl

/-- The lock points stay valid when the chain is as short as it can be, so the spender is final
there whatever the pool holds. -/
theorem isFinalForReorg_spendingTx (adjustedTime : ℤ) (s : CTxMemPool) :
    isFinalForReorg steadyChain minedTime adjustedTime ⟨[some (0 : ℕ)]⟩ s
      standardLocktimeVerifyFlags (0 : ℕ) spendingPoints spendingTx = some true := by
  rw [isFinalForReorg_of_valid (by decide)]
  rfl

end LockPoints

/-- The reorg leaves the spender of the first coinbase in the pool, although all checks pass: it is
final at the new tip by the lock points that the pool has remembered since it was accepted. -/
theorem not_consistent_spendingPool :
    Sound spendingBody spendingPool.coins.value spendingPool ∧
    Connected (fun _ => 0) (fun _ => none) (minedBlocks 100) spendingPool.coins.value ∧
    LockTime.checkSequenceLocks Pow.steadyChain minedTime spendingPool spendingTx
      LockTime.standardLocktimeVerifyFlags (some ⟨0, 0, none⟩) false (100 : ℕ)
        = some (true, some spendingPoints) ∧
    (∀ adjustedTime s, LockTime.isFinalForReorg Pow.steadyChain minedTime adjustedTime
      ⟨[some (0 : ℕ)]⟩ s LockTime.standardLocktimeVerifyFlags (0 : ℕ) spendingPoints spendingTx
        = some true) ∧
    ∃ s', spendingPool.prepareChain (fun _ => 0) ⟨0, 0, 0, 0, 0⟩ 1 (fun _ => ⟨false, 0, 0⟩)
        (fun _ => true) (minedBlocks 100) = some s' ∧
      s'.coins.value = (fun _ => none) ∧ ¬ Consistent (fun _ => none) s' := by
  refine ⟨sound_spendingPool, connected_spendingPool, checkSequenceLocks_spendingPool,
    isFinalForReorg_spendingTx, ?_⟩
  apply prepareChain_of_not_cured (fun _ => 0) _ 1 _ (fun _ => true) wf_spendingPool
    sound_spendingPool connected_spendingPool (fun t c h => by cases h)
    (spendingBody_minedBlocks (by decide)) (txAt_spendingPool 5) List.mem_cons_self
  · refine ⟨fun h => ?_, minedBlock 0, mem_minedBlocks.mpr ⟨0, by decide, rfl⟩, minedCoinbase 0,
      List.mem_cons_self, rfl, rfl⟩
    obtain ⟨c, hc, -⟩ := h
    cases hc
  · rintro ⟨a, e, hpath, he, hwhy⟩
    rw [lookup_spendingPool] at he
    split at he
    · obtain rfl := Option.some.inj he
      rcases hwhy with (hfinal | ⟨-, o, ho, -, himm⟩) | ⟨tx, htx, -⟩
      · cases hfinal
      · obtain rfl := List.mem_singleton.mp ho
        -- there is an entry without outputs
        have hleft : coinsLeft (fun _ => none) spendingPool 1000 = some CCoins.empty := rfl
        cases (himm _ hleft).1
      · obtain ⟨b, hb, htx⟩ := mem_comingBack.mp htx
        obtain ⟨k, -, rfl⟩ := mem_minedBlocks.mp hb
        cases htx
    · cases he

end CTxMemPool
