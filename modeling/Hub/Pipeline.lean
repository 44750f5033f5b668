/-
# The pipeline of block validation

A block that is offered to the engine is carried through its checks by a `BlockValidationState`
object (`libs/server/validation/BlockValidation.cpp`).  The jobs of an object run on worker
threads (`checks2HaveParentHeaders`, `updateUtxoAndStartValidation`, `checkSignaturesChunk`) or on
the strand (`blockHeaderValidated`, `processNewBlock`, `findMoreJobs`); posted jobs are taken in
any order.  Objects have numbers, and blocks stand for their `CBlockIndex`, over the tree `T` of
all blocks.

The steps are the calls.  The loops around `compare_exchange_weak` are one step here, see
`Handshake`.  What a check finds, and how many slots `blocksInFlight` leaves to `findMoreJobs`, is
part of the event.
-/
import Hub.Handshake
import Hub.HeaderRuns

namespace Validation

open Blocks (DB appendHeader)

/-- A `BlockValidationState`. -/
structure Task (ι : Type) where
  block : ι
  isFullBlock : Bool
  status : Status
  /-- `m_blockIndex` is set. -/
  hasIndex : Bool
  chainChildren : List ℕ
  /-- `m_txChunkLeftToStart` and `m_txChunkLeftToFinish`. -/
  chunksLeft : ℤ

namespace Task

variable {ι : Type}

def addChild (c : ℕ) (t : Task ι) : Task ι := { t with chainChildren := t.chainChildren ++ [c] }

def setValidTree (t : Task ι) : Task ι := { t with status := { t.status with validTree := true } }

def setValidChainHeaders (t : Task ι) : Task ι :=
  { t with status := { t.status with validChainHeaders := true } }

def setValidParent (t : Task ι) : Task ι :=
  { t with status := { t.status with validParent := true } }

/-- `blockFailed`, as far as the status goes. -/
def setInvalid (t : Task ι) : Task ι := { t with status := { t.status with invalid := true } }

end Task

/-- What is posted, by the number of its object. -/
inductive Job
  /-- `checks1NoContext` has ended. -/
  | blockHeaderValidated (i : ℕ)
  | checks2HaveParentHeaders (i : ℕ)
  | updateUtxoAndStartValidation (i : ℕ)
  | checkSignaturesChunk (i : ℕ)
  | processNewBlock (i : ℕ)
  deriving DecidableEq

def Job.task : Job → ℕ
  | .blockHeaderValidated i => i
  | .checks2HaveParentHeaders i => i
  | .updateUtxoAndStartValidation i => i
  | .checkSignaturesChunk i => i
  | .processNewBlock i => i

/-- The engine, its objects and the jobs that are posted. -/
structure Pipeline (ι : Type) where
  db : DB ι
  /-- The block is in `Blocks::Index`. -/
  indexed : ι → Bool
  /-- `BLOCK_HAVE_DATA`. -/
  haveData : ι → Bool
  /-- `nChainTx` is set and the validity is raised to `BLOCK_VALID_CHAIN`. -/
  chainTx : ι → Bool
  /-- The active chain; the best block of the coins view is its tip. -/
  blockchain : CChain ι
  made : ℕ
  tasks : ℕ → Task ι
  orphanBlocks : List ℕ
  blocksBeingValidated : ι → Option ℕ
  lastFullBlockScheduled : ℤ
  jobs : List Job

namespace Pipeline

variable {ι : Type} [DecidableEq ι] (T : BlockIndex ι)

/-! ## Objects -/

def block (s : Pipeline ι) (i : ℕ) : ι := (s.tasks i).block

def modify (s : Pipeline ι) (i : ℕ) (f : Task ι → Task ι) : Pipeline ι :=
  { s with tasks := Function.update s.tasks i (f (s.tasks i)) }

def post (s : Pipeline ι) (j : Job) : Pipeline ι := { s with jobs := s.jobs ++ [j] }

/-- Somebody holds the object. -/
def alive (s : Pipeline ι) (i : ℕ) : Bool :=
  decide (i ∈ s.orphanBlocks) || decide (s.blocksBeingValidated (s.block i) = some i) ||
    s.jobs.any fun j => j.task == i

/-- `IsValid(BLOCK_VALID_TRANSACTIONS)`. -/
def isValid (s : Pipeline ι) (b : ι) : Bool := s.chainTx b && !s.db.failed b

/-- `blocksBeingValidated.insert`, which keeps an entry that is there. -/
def insertBlock (s : Pipeline ι) (b : ι) (i : ℕ) : Pipeline ι :=
  if (s.blocksBeingValidated b).isNone then
    { s with blocksBeingValidated := Function.update s.blocksBeingValidated b (some i) }
  else s

/-- The object is added to the children of its parent `p`, or else gets `BlockValidParent` if the
parent is valid. -/
def meetParent (s : Pipeline ι) (i : ℕ) (p : ι) (valid : Bool) : Pipeline ι :=
  match s.blocksBeingValidated p with
  | some q => s.modify q (Task.addChild i)
  | none => if valid then s.modify i Task.setValidParent else s

/-- `signalChildren`; `none` is its assertion. -/
def signalChildren (s : Pipeline ι) (i : ℕ) : Option (Pipeline ι) :=
  (s.tasks i).chainChildren.foldlM
    (fun s c =>
      if !s.alive c then some s
      else if (s.tasks c).status.validParent then none
      else
        let t := s.modify c Task.setValidParent
        some (if (s.tasks c).status.validChainHeaders then
          t.post (.updateUtxoAndStartValidation c) else t))
    s

/-- `recursivelyMark(BlockInvalid)`; the first argument bounds the depth of the recursion. -/
def recursivelyMark : ℕ → ℕ → Pipeline ι → Pipeline ι
  | 0, _, s => s
  | fuel + 1, i, s =>
      (s.tasks i).chainChildren.foldl
        (fun s c => if s.alive c then recursivelyMark fuel c s else s)
        (s.modify i Task.setInvalid)

/-! ## Chains -/

/-- The loop of `prepareChain`; the first argument bounds the rounds. -/
def rollback (headersChain : CChain ι) : ℕ → CChain ι → CChain ι
  | 0, c => c
  | fuel + 1, c =>
      match c.tip with
      | none => c
      | some t =>
          if headersChain.contains T t then c
          else
            match T.pprev t with
            | none => c
            | some p => rollback headersChain fuel (c.setTip T p)

/-- `prepareChain`. -/
def prepareChain (s : Pipeline ι) : Pipeline ι :=
  if s.blockchain.height ≤ 0 then s
  else { s with
    blockchain := rollback T s.db.headersChain s.blockchain.vChain.length s.blockchain }

/-- The blocks from a tip down to `b`, without `b`; the first argument bounds the rounds. -/
def aboveBlock (b : ι) : ℕ → ι → List ι
  | 0, _ => []
  | fuel + 1, tip => if tip = b then [] else tip :: ((T.pprev tip).map (aboveBlock b fuel)).getD []

/-- What `handleFailedBlock` sets a flag on. -/
def failedWith (db : DB ι) (b : ι) : List ι :=
  b :: db.headerChainTips.flatMap fun tip =>
    if T.getAncestor tip (T.nHeight b) = some b then aboveBlock T b (T.nHeight tip + 1) tip else []

/-- `handleFailedBlock`; `none` is an assertion in `appendHeader`. -/
def handleFailedBlock (s : Pipeline ι) (i : ℕ) : Option (Pipeline ι) :=
  let b := s.block i
  let s := recursivelyMark (s.made + 1) i s
  let s := { s with
    db := s.db.mark (failedWith T s.db b)
    indexed := Function.update s.indexed b true }
  (appendHeader T s.db b).map fun r =>
    let s := { s with db := r.2 }
    if r.1 then s.prepareChain T else s

/-! ## `findMoreJobs` -/

/-- A round of the loop, on the block `b` with data. -/
def scheduleNext (s : Pipeline ι) (b : ι) : Pipeline ι :=
  let i := s.made
  let s := { s with
    made := s.made + 1
    tasks := Function.update s.tasks i {
      block := b
      isFullBlock := true
      status := { Status.unknown with validHeader := true, validTree := true }
      hasIndex := true
      chainChildren := []
      chunksLeft := -1 } }
  let s := s.insertBlock b i
  let s :=
    match T.pprev b with
    | some p => s.meetParent i p (s.chainTx p)
    | none => s
  { s.post (.checks2HaveParentHeaders i) with
    lastFullBlockScheduled := s.lastFullBlockScheduled + 1 }

/-- The block that the loop looks at. -/
def nextBlock (s : Pipeline ι) : Option ι :=
  s.db.headersChain.vChain[(s.lastFullBlockScheduled + 1).toNat]?.join

/-- The loop, with room for some blocks: those that load before `blocksInFlightLimit` is reached.  A
block that fails to load ends it; the mark `BLOCK_HAVE_DATA` that it loses is read by this loop
only. -/
def findMoreJobsLoop : ℕ → Pipeline ι → Pipeline ι
  | 0, s => s
  | room + 1, s =>
      match s.nextBlock with
      | none => s
      | some b => if s.haveData b then findMoreJobsLoop room (s.scheduleNext T b) else s

/-- The start of `findMoreJobs`. -/
def resetLast (s : Pipeline ι) : Pipeline ι :=
  if s.lastFullBlockScheduled = -1 then
    { s with lastFullBlockScheduled := max 1 s.blockchain.height } else s

def findMoreJobs (room : ℕ) (s : Pipeline ι) : Pipeline ι :=
  findMoreJobsLoop T room s.resetLast

/-! ## `blockHeaderValidated` -/

/-- The block has no known parent. -/
def isOrphan (s : Pipeline ι) (b : ι) : Bool :=
  match T.pprev b with
  | none => false
  | some p => !s.indexed b && (s.blocksBeingValidated p).isNone && !s.indexed p

/-- The start of `blockHeaderValidated`, with `createBlockIndexFor`. -/
def checkPastWork (s : Pipeline ι) (i : ℕ) (hasFailed : Bool) : Pipeline ι :=
  let b := s.block i
  let s := s.modify i fun t => { t with
    hasIndex := true
    status := { t.status with validHeader := !hasFailed, invalid := hasFailed } }
  match T.pprev b with
  | none => s.modify i Task.setValidParent
  | some p =>
      if s.indexed b then s.meetParent i p (s.isValid p)
      else
        let t := s.meetParent i p (s.indexed p && s.isValid p)
        if ((s.blocksBeingValidated p).isSome || s.indexed p) && s.db.failed p then
          -- bad-parent
          { t.modify i Task.setInvalid with db := t.db.mark [b] }
        else t

/-- `startOrphanWithParent` with `adoptedItems`; the first argument bounds the depth of the
recursion. -/
def startOrphanWithParent : ℕ → ℕ → Pipeline ι → Pipeline ι × List ℕ
  | 0, _, s => (s, [])
  | fuel + 1, i, s =>
      let adoptees := s.orphanBlocks.filter fun o => T.pprev (s.block o) = some (s.block i)
      adoptees.foldl
        (fun r o =>
          let s := if o ∈ (r.1.tasks i).chainChildren then r.1 else r.1.modify i (Task.addChild o)
          let r' := startOrphanWithParent fuel o s
          (r'.1, r.2 ++ r'.2))
        ({ s with orphanBlocks :=
            s.orphanBlocks.filter fun o => ¬ T.pprev (s.block o) = some (s.block i) }, adoptees)

/-- The index of the block is filed, and the block written. -/
def announce (s : Pipeline ι) (i : ℕ) : Option (Pipeline ι) :=
  let b := s.block i
  (appendHeader T s.db b).map fun r => { s with
    db := r.2
    indexed := Function.update s.indexed b true
    haveData :=
      if (s.tasks i).isFullBlock then Function.update s.haveData b true else s.haveData }

/-- The object and the orphans that descend from it, and the state in which they are filed. -/
def accept (s : Pipeline ι) (i : ℕ) : Option (Pipeline ι × List ℕ) :=
  let r := startOrphanWithParent T (s.orphanBlocks.length + 1) i s
  ((i :: r.2).foldlM (announce T) r.1).map fun t => (t, i :: r.2)

/-- A header-reorg: the old tip is not on the headers chain any more. -/
def reorganised (s t : Pipeline ι) : Bool :=
  match s.db.headersChain.tip with
  | none => false
  | some tip => !t.db.headersChain.contains T tip

/-- The parents of the first block are all right. -/
def mayForward (s : Pipeline ι) (b : ι) : Bool :=
  decide (T.nHeight b ≤ 1) ||
    match T.pprev b with
    | none => true
    | some p => s.blockchain.contains T p ||
        match s.blocksBeingValidated p with
        | some q => (s.tasks q).status.validTree
        | none => false

/-- An item is moved on to `checks2HaveParentHeaders`. -/
def schedule (s : Pipeline ι) (i : ℕ) : Pipeline ι :=
  let s := s.insertBlock (s.block i) i
  let s := { s with
    lastFullBlockScheduled := max s.lastFullBlockScheduled (T.nHeight (s.block i)) }
  (s.modify i Task.setValidTree).post (.checks2HaveParentHeaders i)

/-- The last loop of `blockHeaderValidated`, with its variables. -/
def moveOn : List ℕ → (first forward : Bool) → Pipeline ι → Pipeline ι
  | [], _, _, s => s
  | i :: items, first, forward, s =>
      if !s.db.headersChain.contains T (s.block i) then moveOn items first forward s
      else
        let forward := (if first then s.mayForward T (s.block i) else forward) &&
          (s.tasks i).isFullBlock
        moveOn items false forward (if forward then s.schedule T i else s)

/-- The end of `blockHeaderValidated`; `limit` is `blocksInFlightLimit()`. -/
def acceptBlock (limit : ℤ) (room : ℕ) (s : Pipeline ι) (i : ℕ) : Option (Pipeline ι) :=
  (s.accept T i).map fun (t, items) =>
    if reorganised T s t then
      findMoreJobs T room { t.prepareChain T with lastFullBlockScheduled := -1 }
    else if T.nHeight (s.block i) - t.blockchain.height < limit then moveOn T items true false t
    else t

def blockHeaderValidated (limit : ℤ) (room : ℕ) (s : Pipeline ι) (i : ℕ) (hasFailed : Bool) :
    Option (Pipeline ι) :=
  let b := s.block i
  if (s.tasks i).hasIndex then none
  else if (!hasFailed && (s.blocksBeingValidated b).isSome) ||
      s.indexed b && (s.db.failed b || s.blockchain.contains T b) then
    some (s.modify i fun t => { t with hasIndex := true })
  -- `appendHeader` asserts that a failed block has a parent
  else if hasFailed && s.isOrphan T b then none
  else
    let t := s.checkPastWork T i hasFailed
    if hasFailed || t.db.failed b then t.handleFailedBlock T i
    else if s.isOrphan T b then some { t with orphanBlocks := t.orphanBlocks ++ [i] }
    else t.acceptBlock T limit room i

/-! ## The jobs of a block -/

def checks2HaveParentHeaders (s : Pipeline ι) (i : ℕ) (ok : Bool) : Option (Pipeline ι) :=
  if !(s.tasks i).hasIndex then none
  else if ok then
    let t := s.modify i Task.setValidChainHeaders
    some (if (s.tasks i).status.validParent || (s.tasks i).status.invalid then
      t.post (.updateUtxoAndStartValidation i) else t)
  else some ((s.modify i Task.setInvalid).post (.processNewBlock i))

/-- How `updateUtxoAndStartValidation` ends. -/
inductive Utxo
  | failed
  /-- The block is below many headers: its signatures are not checked. -/
  | shallow
  /-- The signatures are checked in `chunks + 1` parts. -/
  | started (chunks : ℕ)
  deriving DecidableEq

def updateUtxoAndStartValidation (s : Pipeline ι) (i : ℕ) (utxo : Utxo) : Option (Pipeline ι) :=
  if !(s.tasks i).hasIndex || decide (0 ≤ (s.tasks i).chunksLeft) then none
  else if (T.pprev (s.block i)).isNone then some (s.post (.processNewBlock i))
  else
    match utxo with
    | .failed => some ((s.modify i Task.setInvalid).post (.processNewBlock i))
    | .shallow => some (s.post (.processNewBlock i))
    | .started chunks =>
        let s := s.modify i fun t => { t with chunksLeft := chunks + 1 }
        some { s with jobs := s.jobs ++ List.replicate (chunks + 1) (.checkSignaturesChunk i) }

def checkSignaturesChunk (s : Pipeline ι) (i : ℕ) (ok : Bool) : Option (Pipeline ι) :=
  let left := (s.tasks i).chunksLeft - 1
  if left < 0 then none
  else
    let s := s.modify i fun t => { (if ok then t else t.setInvalid) with chunksLeft := left }
    some (if left ≤ 0 then s.post (.processNewBlock i) else s)

/-! ## `processNewBlock` -/

/-- The block has as much work as the tip. -/
def enoughWork (s : Pipeline ι) (b : ι) : Bool :=
  match s.blockchain.tip with
  | none => true
  | some t => decide (T.nChainWork t ≤ T.nChainWork b)

def isNextChainTip (s : Pipeline ι) (b : ι) : Bool := decide ((T.nHeight b : ℤ) ≤ s.blockchain.height + 1)

def addToChain (s : Pipeline ι) (i : ℕ) : Bool :=
  s.isNextChainTip T (s.block i) && !(s.tasks i).status.invalid &&
    s.db.headersChain.contains T (s.block i)

/-- The `try` block of `processNewBlock`; `ok` is what the checks of the amounts find. -/
def appendBlock (s : Pipeline ι) (i : ℕ) (ok : Bool) : Option (Pipeline ι) :=
  let b := s.block i
  if s.blockchain.tip ≠ T.pprev b then
    -- View DB inconsistent!
    some (s.modify i Task.setInvalid)
  else
    let s := { s with chainTx := Function.update s.chainTx b true }
    if (T.pprev b).isSome && !ok then some (s.modify i Task.setInvalid)
    else (s.signalChildren i).map fun s => { s with blockchain := s.blockchain.setTip T b }

/-- A block that has turned out to be invalid. -/
def rejectBlock (s : Pipeline ι) (i : ℕ) : Option (Pipeline ι) :=
  (s.handleFailedBlock T i).map fun t =>
    if (T.nHeight (s.block i) : ℤ) = t.lastFullBlockScheduled then
      { t with lastFullBlockScheduled := t.lastFullBlockScheduled - 1 }
    else t

/-- The end of `processNewBlock`.  For an invalid genesis block it returns early. -/
def finishBlock (s : Pipeline ι) (i : ℕ) : Pipeline ι :=
  let b := s.block i
  let s := s.modify i fun t => { t with
    hasIndex := t.hasIndex && (T.pprev b).isNone && t.status.invalid }
  { s with blocksBeingValidated := Function.update s.blocksBeingValidated b none }

/-- `processNewBlock`; `none` is an assertion that fails. -/
def processNewBlock (s : Pipeline ι) (i : ℕ) (ok : Bool) : Option (Pipeline ι) :=
  let b := s.block i
  if !(s.tasks i).hasIndex then some s
  else if !s.enoughWork T b then none
  else
    let s' := if s.isNextChainTip T b then s else { s with db := s.db.mark [b] }
    let t := if s.addToChain T i then s'.appendBlock T i ok else some s'
    (t.bind fun t =>
      if (t.tasks i).status.invalid && (T.pprev b).isSome then t.rejectBlock T i else some t).map
      fun t => t.finishBlock T i

/-! ## Runs -/

inductive Event (ι : Type)
  /-- A block or a header is offered. -/
  | offer (b : ι) (isFullBlock : Bool)
  | blockHeaderValidated (i : ℕ) (hasFailed : Bool) (room : ℕ)
  | findMoreJobs (room : ℕ)
  | checks2HaveParentHeaders (i : ℕ) (ok : Bool)
  | updateUtxoAndStartValidation (i : ℕ) (utxo : Utxo)
  | checkSignaturesChunk (i : ℕ) (ok : Bool)
  | processNewBlock (i : ℕ) (ok : Bool)
  deriving DecidableEq

/-- A job is taken. -/
def take (s : Pipeline ι) (j : Job) : Option (Pipeline ι) :=
  if j ∈ s.jobs then some { s with jobs := s.jobs.erase j } else none

/-- A new object for a block that is offered. -/
def offer (s : Pipeline ι) (b : ι) (isFullBlock : Bool) : Pipeline ι :=
  { s with
    made := s.made + 1
    tasks := Function.update s.tasks s.made {
      block := b
      isFullBlock := isFullBlock
      status := .unknown
      hasIndex := false
      chainChildren := []
      chunksLeft := -1 }
    jobs := s.jobs ++ [.blockHeaderValidated s.made] }

/-- A step; `none` is a job that is not posted, or an assertion that fails. -/
def step (limit : ℤ) (s : Pipeline ι) : Event ι → Option (Pipeline ι)
  | .offer b isFullBlock => some (s.offer b isFullBlock)
  | .blockHeaderValidated i hasFailed room =>
      (s.take (.blockHeaderValidated i)).bind fun s =>
        s.blockHeaderValidated T limit room i hasFailed
  | .findMoreJobs room => some (s.findMoreJobs T room)
  | .checks2HaveParentHeaders i ok =>
      (s.take (.checks2HaveParentHeaders i)).bind fun s => s.checks2HaveParentHeaders i ok
  | .updateUtxoAndStartValidation i utxo =>
      (s.take (.updateUtxoAndStartValidation i)).bind fun s =>
        s.updateUtxoAndStartValidation T i utxo
  | .checkSignaturesChunk i ok =>
      (s.take (.checkSignaturesChunk i)).bind fun s => s.checkSignaturesChunk i ok
  | .processNewBlock i ok =>
      (s.take (.processNewBlock i)).bind fun s => s.processNewBlock T i ok

/-- An engine that has seen no block.  `b` is the block of the objects that are not made yet. -/
def initial (b : ι) : Pipeline ι where
  db := .empty fun _ => false
  indexed := fun _ => false
  haveData := fun _ => false
  chainTx := fun _ => false
  blockchain := ⟨[]⟩
  made := 0
  tasks := fun _ => ⟨b, false, .unknown, false, [], -1⟩
  orphanBlocks := []
  blocksBeingValidated := fun _ => none
  lastFullBlockScheduled := -1
  jobs := []

/-! ## What the steps leave alone -/

section Frame

variable {s t u : Pipeline ι} {i k c : ℕ} {b : ι} {f : Task ι → Task ι}

omit [DecidableEq ι]

@[simp] theorem tasks_modify_self : (s.modify i f).tasks i = f (s.tasks i) :=
  Function.update_self ..

theorem tasks_modify_of_ne (h : k ≠ i) : (s.modify i f).tasks k = s.tasks k :=
  Function.update_of_ne h ..

/-- What holds of both tasks holds of the task after `modify`. -/
theorem tasks_modify_ind {P : Task ι → Prop} (hself : k = i → P (f (s.tasks i)))
    (hother : k ≠ i → P (s.tasks k)) : P ((s.modify i f).tasks k) := by
  by_cases h : k = i
  · subst h
    rw [tasks_modify_self]
    exact hself rfl
  · rw [tasks_modify_of_ne h]
    exact hother h

end Frame

end Pipeline

/-- `t'` is the object `t` with more bits and children. -/
structure Task.Grows {ι : Type} (t t' : Task ι) : Prop where
  block : t'.block = t.block
  isFullBlock : t'.isFullBlock = t.isFullBlock
  hasIndex : t.hasIndex = true → t'.hasIndex = true
  chunksLeft : t'.chunksLeft = t.chunksLeft
  validChainHeaders : t'.status.validChainHeaders = t.status.validChainHeaders
  validParent : t.status.validParent = true → t'.status.validParent = true
  invalid : t.status.invalid = true → t'.status.invalid = true
  children : t.chainChildren ⊆ t'.chainChildren

namespace Task

variable {ι : Type} {t t' t'' : Task ι}

theorem Grows.refl (t : Task ι) : Grows t t :=
  ⟨rfl, rfl, id, rfl, rfl, id, id, List.Subset.refl _⟩

theorem Grows.trans (h : Grows t t') (h' : Grows t' t'') : Grows t t'' where
  block := h'.block.trans h.block
  isFullBlock := h'.isFullBlock.trans h.isFullBlock
  hasIndex := h'.hasIndex ∘ h.hasIndex
  chunksLeft := h'.chunksLeft.trans h.chunksLeft
  validChainHeaders := h'.validChainHeaders.trans h.validChainHeaders
  validParent := h'.validParent ∘ h.validParent
  invalid := h'.invalid ∘ h.invalid
  children := List.Subset.trans h.children h'.children

theorem grows_addChild (c : ℕ) (t : Task ι) : Grows t (t.addChild c) :=
  { Grows.refl t with children := List.subset_append_left _ _ }

theorem grows_setValidParent (t : Task ι) : Grows t t.setValidParent :=
  { Grows.refl t with validParent := fun _ => rfl }

end Task

namespace Pipeline

variable {ι : Type} [DecidableEq ι] {T : BlockIndex ι}

/-- `t` comes from `s` by steps that add to the objects, and post nothing. -/
structure Grows (s t : Pipeline ι) : Prop where
  made : t.made = s.made
  tasks : ∀ i, Task.Grows (s.tasks i) (t.tasks i)
  map : t.blocksBeingValidated = s.blocksBeingValidated
  jobs : t.jobs = s.jobs

section Grows

variable {s t u : Pipeline ι} {i k : ℕ} {p : ι} {f : Task ι → Task ι}

omit [DecidableEq ι]

theorem Grows.block (h : Grows s t) (i : ℕ) : t.block i = s.block i := (h.tasks i).block

theorem Grows.refl (s : Pipeline ι) : Grows s s := ⟨rfl, fun _ => Task.Grows.refl _, rfl, rfl⟩

theorem Grows.trans (h : Grows s t) (h' : Grows t u) : Grows s u :=
  ⟨h'.made.trans h.made, fun i => (h.tasks i).trans (h'.tasks i), h'.map.trans h.map,
    h'.jobs.trans h.jobs⟩

theorem grows_modify (h : Task.Grows (s.tasks i) (f (s.tasks i))) : Grows s (s.modify i f) :=
  ⟨rfl, fun _ => tasks_modify_ind (fun hk => hk ▸ h) fun _ => Task.Grows.refl _, rfl, rfl⟩

theorem grows_meetParent (s : Pipeline ι) (i : ℕ) (p : ι) (valid : Bool) :
    Grows s (s.meetParent i p valid) := by
  unfold meetParent
  split
  · exact grows_modify (Task.grows_addChild i _)
  · split_ifs
    · exact grows_modify (Task.grows_setValidParent _)
    · exact Grows.refl s

end Grows

/-- What `startOrphanWithParent` on the object `i` made of `s`, when it has come to `t` and
`adopted` and has still to enter `todo` into the children of `i`. -/
structure Adopting (T : BlockIndex ι) (i : ℕ) (s t : Pipeline ι) (adopted todo : List ℕ) :
    Prop where
  grows : Grows s t
  rest : t = { s with tasks := t.tasks, orphanBlocks := t.orphanBlocks }
  status : ∀ k, (t.tasks k).status = (s.tasks k).status
  hasIndex : ∀ k, (t.tasks k).hasIndex = (s.tasks k).hasIndex
  perm : s.orphanBlocks.Perm (adopted ++ t.orphanBlocks)
  sublist : t.orphanBlocks.Sublist s.orphanBlocks
  todo_sub : ∀ o ∈ todo, o ∈ adopted ∧ T.pprev (s.block o) = some (s.block i)
  /-- The parent of an item stands before it in the list, and has it among its children. -/
  parent : ∀ l₁ o l₂, adopted = l₁ ++ o :: l₂ → ∃ q ∈ i :: l₁,
    T.pprev (s.block o) = some (s.block q) ∧ (o ∈ todo ∧ q = i ∨ o ∈ (t.tasks q).chainChildren)
  children : ∀ q c, c ∈ (t.tasks q).chainChildren → c ∈ (s.tasks q).chainChildren ∨
    c ∈ adopted ∧ T.pprev (s.block c) = some (s.block q)

variable {s t u : Pipeline ι} {i o : ℕ} {adopted l todo : List ℕ}

omit [DecidableEq ι] in
/-- One more orphan is entered into the children of `i`. -/
theorem Adopting.enter (h : Adopting T i s t adopted (o :: todo)) :
    Adopting T i s (if o ∈ (t.tasks i).chainChildren then t else t.modify i (Task.addChild o))
      adopted todo := by
  set t₁ := if o ∈ (t.tasks i).chainChildren then t else t.modify i (Task.addChild o) with ht₁
  obtain ⟨ho, hchild⟩ := h.todo_sub o (by simp)
  have hgrows : Grows t t₁ := by
    rw [ht₁]
    split_ifs
    · exact Grows.refl t
    · exact grows_modify (Task.grows_addChild o _)
  have hmem : o ∈ (t₁.tasks i).chainChildren := by
    rw [ht₁]
    split_ifs with hin
    · exact hin
    · simp [Task.addChild]
  have hback : ∀ q c, c ∈ (t₁.tasks q).chainChildren →
      c ∈ (t.tasks q).chainChildren ∨ c = o ∧ q = i := by
    intro q c hc
    rw [ht₁] at hc
    split_ifs at hc
    · exact .inl hc
    · by_cases hq : q = i
      · subst hq
        rw [tasks_modify_self] at hc
        rcases List.mem_append.mp hc with hc | hc
        · exact .inl hc
        · exact .inr ⟨List.mem_singleton.mp hc, rfl⟩
      · rw [tasks_modify_of_ne hq] at hc
        exact .inl hc
  have hsame : t₁ = { t with tasks := t₁.tasks } ∧ (∀ k, (t₁.tasks k).status = (t.tasks k).status) ∧
      ∀ k, (t₁.tasks k).hasIndex = (t.tasks k).hasIndex := by
    rw [ht₁]
    split_ifs
    · exact ⟨rfl, fun _ => rfl, fun _ => rfl⟩
    · refine ⟨rfl, fun k => ?_, fun k => ?_⟩
      · exact tasks_modify_ind (P := fun u => u.status = (t.tasks k).status)
          (fun hk => by rw [hk]; rfl) fun _ => rfl
      · exact tasks_modify_ind (P := fun u => u.hasIndex = (t.tasks k).hasIndex)
          (fun hk => by rw [hk]; rfl) fun _ => rfl
  have horphans : t₁.orphanBlocks = t.orphanBlocks := by rw [hsame.1]
  refine ⟨h.grows.trans hgrows, ?_, fun k => (hsame.2.1 k).trans (h.status k),
    fun k => (hsame.2.2 k).trans (h.hasIndex k), ?_, ?_, fun x hx => h.todo_sub x (by simp [hx]), ?_, ?_⟩
  · rw [hsame.1, h.rest]
  · rw [horphans]
    exact h.perm
  · rw [horphans]
    exact h.sublist
  · intro l₁ x l₂ hl
    obtain ⟨q, hq, hprev, hreg⟩ := h.parent l₁ x l₂ hl
    refine ⟨q, hq, hprev, ?_⟩
    rcases hreg with ⟨hx, rfl⟩ | hreg
    · rcases List.mem_cons.mp hx with rfl | hx
      · exact .inr hmem
      · exact .inl ⟨hx, rfl⟩
    · exact .inr ((hgrows.tasks q).children hreg)
  · intro q c hc
    rcases hback q c hc with hc | ⟨rfl, rfl⟩
    · exact h.children q c hc
    · exact .inr ⟨ho, hchild⟩

omit [DecidableEq ι] in
/-- The recursive call on an item of the list. -/
theorem Adopting.append (h : Adopting T i s t adopted todo) (ho : o ∈ adopted)
    (h' : Adopting T o t u l []) : Adopting T i s u (adopted ++ l) todo := by
  have hblock := h.grows.block
  refine ⟨h.grows.trans h'.grows, ?_, fun k => (h'.status k).trans (h.status k),
    fun k => (h'.hasIndex k).trans (h.hasIndex k), ?_, h'.sublist.trans h.sublist, ?_, ?_, ?_⟩
  · rw [h'.rest, h.rest]
  · rw [List.append_assoc]
    exact h.perm.trans (h'.perm.append_left adopted)
  · intro x hx
    obtain ⟨hmem, hprev⟩ := h.todo_sub x hx
    exact ⟨List.mem_append_left l hmem, hprev⟩
  · intro l₁ x l₂ hl
    rcases List.append_eq_append_iff.mp hl with ⟨m, rfl, hm⟩ | ⟨m, hm, hl'⟩
    · -- an item of the recursive call
      obtain ⟨q, hq, hprev, hreg⟩ := h'.parent m x l₂ hm
      rw [hblock, hblock] at hprev
      refine ⟨q, ?_, hprev, .inr (hreg.resolve_left (by simp))⟩
      rcases List.mem_cons.mp hq with rfl | hq
      · simp [ho]
      · simp [hq]
    · cases m with
      | nil =>
        obtain ⟨q, hq, hprev, hreg⟩ := h'.parent [] x l₂ (by simpa using hl'.symm)
        rw [hblock, hblock] at hprev
        obtain rfl : q = o := by simpa using hq
        refine ⟨q, ?_, hprev, .inr (hreg.resolve_left (by simp))⟩
        rw [hm, List.append_nil] at ho
        simp [ho]
      | cons y m =>
        obtain ⟨rfl, -⟩ : x = y ∧ l₂ = m ++ l := by simpa using hl'
        obtain ⟨q, hq, hprev, hreg⟩ := h.parent l₁ x m hm
        exact ⟨q, hq, hprev, hreg.imp_right fun hreg => (h'.grows.tasks q).children hreg⟩
  · intro q c hc
    rcases h'.children q c hc with hc | ⟨hc, hprev⟩
    · exact (h.children q c hc).imp_right fun ⟨hc, hprev⟩ => ⟨List.mem_append_left l hc, hprev⟩
    · rw [hblock, hblock] at hprev
      exact .inr ⟨List.mem_append_right _ hc, hprev⟩

/-- The loop of `startOrphanWithParent`. -/
theorem foldl_adopting {fuel : ℕ}
    (ih : ∀ o (s : Pipeline ι), Adopting T o s (startOrphanWithParent T fuel o s).1
      (startOrphanWithParent T fuel o s).2 []) :
    ∀ (todo : List ℕ) (t : Pipeline ι) (adopted : List ℕ), Adopting T i s t adopted todo →
      let r := todo.foldl (fun r o =>
        let s := if o ∈ (r.1.tasks i).chainChildren then r.1 else r.1.modify i (Task.addChild o)
        let r' := startOrphanWithParent T fuel o s
        (r'.1, r.2 ++ r'.2)) (t, adopted)
      Adopting T i s r.1 r.2 [] := by
  intro todo
  induction todo with
  | nil =>
    intro t adopted h
    exact h
  | cons o todo ihtodo =>
    intro t adopted h
    exact ihtodo _ _ (h.enter.append (h.todo_sub o (by simp)).1 (ih o _))

/-- **`startOrphanWithParent`** takes the orphans above an object out, each behind its parent. -/
theorem startOrphanWithParent_spec : ∀ (fuel i : ℕ) (s : Pipeline ι),
    Adopting T i s (startOrphanWithParent T fuel i s).1 (startOrphanWithParent T fuel i s).2 [] := by
  intro fuel
  induction fuel with
  | zero =>
    intro i s
    refine ⟨Grows.refl s, rfl, fun _ => rfl, fun _ => rfl, List.Perm.refl _, List.Sublist.refl _,
      fun _ ho => absurd ho List.not_mem_nil, fun l₁ o l₂ h => ?_, fun _ _ hc => .inl hc⟩
    simp [startOrphanWithParent] at h
  | succ fuel ih =>
    intro i s
    unfold startOrphanWithParent
    refine foldl_adopting ih _ _ _ ?_
    have hmem : ∀ o ∈ s.orphanBlocks.filter fun o => T.pprev (s.block o) = some (s.block i),
        T.pprev (s.block o) = some (s.block i) := by
      intro o ho
      simpa using (List.mem_filter.mp ho).2
    refine ⟨⟨rfl, fun _ => Task.Grows.refl _, rfl, rfl⟩, rfl, fun _ => rfl, fun _ => rfl, ?_,
      List.filter_sublist, fun o ho => ⟨ho, hmem o ho⟩, fun l₁ o l₂ h => ?_, fun _ _ hc => .inl hc⟩
    · have := (List.filter_append_perm
        (fun o => decide (T.pprev (s.block o) = some (s.block i))) s.orphanBlocks).symm
      simpa using this
    · have ho : o ∈ s.orphanBlocks.filter fun o => T.pprev (s.block o) = some (s.block i) := by
        rw [h]
        simp
      exact ⟨i, by simp, hmem o ho, .inl ⟨ho, rfl⟩⟩

/-! ## The children of a block -/

/-- What `signalChildren` made of `s` when it has come to `t` over the children `l`. -/
structure Signals (s t : Pipeline ι) (l : List ℕ) : Prop where
  rest : t = { s with tasks := t.tasks, jobs := t.jobs }
  tasks : ∀ k, t.tasks k = s.tasks k ∨
    k ∈ l ∧ s.alive k = true ∧ t.tasks k = (s.tasks k).setValidParent
  jobs : ∃ new : List ℕ, t.jobs = s.jobs ++ new.map .updateUtxoAndStartValidation ∧
    ∀ c ∈ new, c ∈ l ∧ s.alive c = true ∧ (s.tasks c).status.validChainHeaders = true
  /-- A child that is there gets the bit, and starts if its checks are over. -/
  children : ∀ c ∈ l, s.alive c = true → (t.tasks c).status.validParent = true ∧
    ((s.tasks c).status.validChainHeaders = true → .updateUtxoAndStartValidation c ∈ t.jobs)

omit [DecidableEq ι] in
theorem Signals.grows (h : Signals s t l) (k : ℕ) : Task.Grows (s.tasks k) (t.tasks k) := by
  rcases h.tasks k with heq | ⟨-, -, heq⟩
  · rw [heq]
    exact Task.Grows.refl _
  · rw [heq]
    exact Task.grows_setValidParent _

omit [DecidableEq ι] in
/-- One more child. -/
theorem Signals.snoc {c : ℕ} (h : Signals s t l) (hu : (if !t.alive c then some t
    else if (t.tasks c).status.validParent then none
    else some (if (t.tasks c).status.validChainHeaders then
      (t.modify c Task.setValidParent).post (.updateUtxoAndStartValidation c)
      else t.modify c Task.setValidParent)) = some u) : Signals s u (l ++ [c]) := by
  obtain ⟨new, hnew, hmem⟩ := h.jobs
  have hjobs : ∀ j ∈ s.jobs, j ∈ t.jobs := fun j hj => by
    rw [hnew]
    exact List.mem_append_left _ hj
  have hblock : ∀ k, t.block k = s.block k := fun k => (h.grows k).block
  have halive : ∀ k, t.alive k = true ↔ s.alive k = true := by
    intro k
    have hmap : t.blocksBeingValidated = s.blocksBeingValidated := by rw [h.rest]
    have horphans : t.orphanBlocks = s.orphanBlocks := by rw [h.rest]
    simp only [alive, hmap, horphans, hblock, Bool.or_eq_true, List.any_eq_true]
    constructor
    · rintro (hold | ⟨j, hj, hk⟩)
      · exact .inl hold
      · rw [hnew] at hj
        rcases List.mem_append.mp hj with hj | hj
        · exact .inr ⟨j, hj, hk⟩
        · obtain ⟨c', hc', rfl⟩ := List.mem_map.mp hj
          obtain rfl : c' = k := by simpa [Job.task] using hk
          simpa [alive, Bool.or_eq_true, List.any_eq_true] using (hmem c' hc').2.1
    · rintro (hold | ⟨j, hj, hk⟩)
      · exact .inl hold
      · exact .inr ⟨j, hjobs j hj, hk⟩
  have hsub : ∀ {k}, k ∈ l → k ∈ l ++ [c] := fun hk => List.mem_append_left _ hk
  by_cases hc : t.alive c = true
  · rw [if_neg (by simp [hc])] at hu
    by_cases hvalid : (t.tasks c).status.validParent = true
    · rw [if_pos hvalid] at hu
      cases hu
    · rw [if_neg hvalid] at hu
      have hsc := (halive c).mp hc
      -- the bit is new, so the object is as it was
      have hold : t.tasks c = s.tasks c := by
        rcases h.tasks c with heq | ⟨-, -, heq⟩
        · exact heq
        · rw [heq] at hvalid
          exact absurd rfl hvalid
      have htasks : u.tasks = (t.modify c Task.setValidParent).tasks := by
        obtain rfl := Option.some.inj hu
        split_ifs <;> rfl
      have hself : u.tasks c = (s.tasks c).setValidParent := by
        rw [htasks, tasks_modify_self, hold]
      have hother : ∀ k, k ≠ c → u.tasks k = t.tasks k := fun k hk => by
        rw [htasks, tasks_modify_of_ne hk]
      refine ⟨?_, fun k => ?_, ?_, fun k hk hka => ?_⟩
      · obtain rfl := Option.some.inj hu
        split_ifs
        · rw [post, modify, h.rest]
        · rw [modify, h.rest]
      · by_cases hk : k = c
        · subst hk
          exact .inr ⟨by simp, hsc, hself⟩
        · rw [hother k hk]
          exact (h.tasks k).imp_right fun ⟨hl, ha, heq⟩ => ⟨hsub hl, ha, heq⟩
      · by_cases hchecked : (t.tasks c).status.validChainHeaders = true
        · rw [if_pos hchecked] at hu
          obtain rfl := Option.some.inj hu
          refine ⟨new ++ [c], ?_, fun k hk => ?_⟩
          · show t.jobs ++ [_] = _
            rw [hnew, List.map_append, List.append_assoc]
            rfl
          · rcases List.mem_append.mp hk with hk | hk
            · exact (hmem k hk).imp_left hsub
            · obtain rfl := List.mem_singleton.mp hk
              exact ⟨by simp, hsc, hold ▸ hchecked⟩
        · rw [if_neg hchecked] at hu
          obtain rfl := Option.some.inj hu
          exact ⟨new, hnew, fun k hk => (hmem k hk).imp_left hsub⟩
      · have hujobs : ∀ j ∈ t.jobs, j ∈ u.jobs := by
          intro j hj
          obtain rfl := Option.some.inj hu
          split_ifs
          · exact List.mem_append_left _ hj
          · exact hj
        by_cases hkc : k = c
        · subst hkc
          refine ⟨by rw [hself]; rfl, fun hchecked => ?_⟩
          rw [if_pos (by rw [hold]; exact hchecked)] at hu
          obtain rfl := Option.some.inj hu
          simp [post]
        · rw [hother k hkc]
          have hl : k ∈ l := by simpa [hkc] using hk
          obtain ⟨hbit, hpost⟩ := h.children k hl hka
          exact ⟨hbit, fun hchecked => hujobs _ (hpost hchecked)⟩
  · rw [if_pos (by simp [hc])] at hu
    obtain rfl := Option.some.inj hu
    refine ⟨h.rest, fun k => ?_, ⟨new, hnew, fun k hk => (hmem k hk).imp_left hsub⟩,
      fun k hk hka => ?_⟩
    · exact (h.tasks k).imp_right fun ⟨hl, ha, heq⟩ => ⟨hsub hl, ha, heq⟩
    · have hkc : k ≠ c := by
        rintro rfl
        exact hc ((halive k).mpr hka)
      exact h.children k (by simpa [hkc] using hk) hka

/-- What filing the headers of `items` made of `s`. -/
structure Filed (T : BlockIndex ι) (s t : Pipeline ι) (items : List ℕ) : Prop where
  rest : t = { s with db := t.db, indexed := t.indexed, haveData := t.haveData }
  indexed : ∀ b, t.indexed b = true ↔ s.indexed b = true ∨ ∃ o ∈ items, s.block o = b
  headers : s.db.headersChain.Valid T → t.db.headersChain.Valid T

theorem foldlM_announce : ∀ (items : List ℕ) (s t : Pipeline ι),
    items.foldlM (announce T) s = some t → Filed T s t items := by
  intro items
  induction items with
  | nil =>
    intro s t h
    obtain rfl := Option.some.inj h
    exact ⟨rfl, fun b => by simp, id⟩
  | cons i items ih =>
    intro s t h
    rw [List.foldlM_cons] at h
    obtain ⟨u, hu, h⟩ := Option.bind_eq_some_iff.mp h
    obtain ⟨r, hr, rfl⟩ := Option.map_eq_some_iff.mp hu
    have ht := ih _ t h
    refine ⟨?_, fun b => ?_, fun hc => ht.headers (Blocks.appendHeader_valid hc hr)⟩
    · rw [ht.rest]
    · rw [ht.indexed b]
      show Function.update s.indexed (s.block i) true b = true ∨ (∃ o ∈ items, s.block o = b) ↔ _
      by_cases hb : b = s.block i
      · subst hb
        simp
      · rw [Function.update_of_ne hb]
        simp [Ne.symm hb]

omit [DecidableEq ι] in
theorem Filed.grows (h : Filed T s t l) : Grows s t := by
  rw [h.rest]
  exact ⟨rfl, fun _ => Task.Grows.refl _, rfl, rfl⟩

end Pipeline

end Validation
