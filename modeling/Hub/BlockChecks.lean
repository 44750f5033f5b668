/-
# The checks of a block that need no context

`BlockValidationState::checks1NoContext` (`libs/server/validation/BlockValidation.cpp`) on a
block that has its data.  It has two parsers read the transactions, first
`FastBlock::findTransactions` "to find out if the block and its transactions are well formed and
parsable" and then `createOldBlock`.  Both throw a `std::runtime_error` on what they refuse, and the
handler for these is an `assert(false)`; only `Validation::Exception` becomes a rejection.

`neverFatal_iff` says which buffers can be given to the engine all the same: those that start with
the serialisation of a block, in canonical form and without lengths above `MAX_SIZE`.
-/
import Hub.FastBlock
import Hub.Merkle

open ByteCodec Serialization Streaming

namespace Validation

/-! ## The code -/

inductive RejectCode where
  | invalid
  | exceedsLimit
  deriving DecidableEq

/-- What `blockFailed` is given: the punishment, the error, the code and whether the block
may have been corrupted on its way. -/
structure BlockFailure where
  punishment : ℤ
  error : String
  code : RejectCode
  corruptionPossible : Bool
  deriving DecidableEq

/-- `Exception(error, punishment)`. -/
def failure (error : String) (punishment : ℤ) : BlockFailure := ⟨punishment, error, .invalid, false⟩

/-- `Exception(error, InvalidNotFatal)`. -/
def corruption (error : String) : BlockFailure := ⟨100, error, .invalid, true⟩

/-- How `checks1NoContext` ends. -/
inductive ChecksOutcome where
  /-- `BlockValidHeader` is set. -/
  | blockValidHeader
  /-- `BlockInvalid` is set, by `blockFailed`. -/
  | blockInvalid (failure : BlockFailure)
  /-- `assert(false)` in the handler for `std::runtime_error`. -/
  | assertFalse (what : String)
  /-- Another exception or a crash, which nothing handles. -/
  | unhandled (fault : Fault)
  deriving DecidableEq

/-- What the checks depend on besides the data: the members of `BlockValidationState`, the clock,
the configuration and the hashes.  `punishOversize blockSize limit` is the punishment that is
computed with floating point numbers. -/
structure Checks where
  checkPow : Bool
  checkMerkleRoot : Bool
  checkTransactionValidity : Bool
  getAdjustedTime : ℤ
  blockSizeAcceptLimit : ℕ
  punishOversize : ℕ → ℕ → ℤ
  Hash : List UInt8 → Uint256
  hashPair : Uint256 → Uint256 → Uint256
  /-- `CheckProofOfWork` on the hash and `bits()` of the block. -/
  checkProofOfWork : Uint256 → ℕ → Bool

/-- `FastBlock::createHash`. -/
def createHash (c : Checks) (block : FastBlock) : Uint256 := c.Hash (block.data.bytes.take 80)

/-- An exception of `Validation::checkTransaction`. -/
def liftCheck : Except Exception Unit → Except BlockFailure Unit
  | .ok _ => .ok ()
  | .error e => .error (failure e.reason e.punishment)

/-- The checks on the parsed block behind the Merkle root. -/
def checkContents (c : Checks) (block : CBlock) : Except BlockFailure Unit := do
  if block.vtx = [] then throw (failure "bad-blk-length" 100)
  let blockSize := block.serialize.length % 2 ^ 32
  if block.vtx.length > c.blockSizeAcceptLimit ∨ blockSize > c.blockSizeAcceptLimit then
    throw ⟨c.punishOversize blockSize c.blockSizeAcceptLimit, "bad-blk-length", .exceedsLimit, false⟩
  -- First transaction must be coinbase, the rest must not be
  if ¬ (block.vtx.head?.map CTransaction.isCoinBase).getD false then
    throw (failure "bad-cb-missing" 100)
  if block.vtx.tail.any CTransaction.isCoinBase then throw (failure "bad-cb-multiple" 100)
  block.vtx.forM fun tx => liftCheck (checkTransaction tx)

/-- The check of the Merkle root; `none` is an access behind the end of an array. -/
def checkRoot (c : Checks) (block : CBlock) : Option (Except BlockFailure Unit) := do
  if c.checkMerkleRoot then
    let (hashMerkleRoot2, mutated) ←
      Merkle.computeMerkleRoot c.hashPair (block.vtx.map CTransaction.hash)
    if block.header.hashMerkleRoot ≠ hashMerkleRoot2 then
      some (.error (corruption "bad-txnmrklroot"))
    else if mutated then some (.error (corruption "bad-txns-duplicate"))
    else some (.ok ())
  else some (.ok ())

/-- What the handlers make of an exception or a fault of the parsers. -/
def handle : Fault → ChecksOutcome
  | .runtimeError what => .assertFalse what
  | fault => .unhandled fault

/-- The part on the transactions of a full block. -/
def checkFullBlock (c : Checks) (block : FastBlock) : ChecksOutcome :=
  match block.findTransactions with
  | .error fault => handle fault
  | .ok block =>
      match block.createOldBlock c.Hash with
      | .error fault => handle fault
      | .ok oldBlock =>
          match checkRoot c oldBlock with
          | none => .unhandled .outOfBounds
          | some (.error e) => .blockInvalid e
          | some (.ok _) =>
              match checkContents c oldBlock with
              | .error e => .blockInvalid e
              | .ok _ => .blockValidHeader

/-- `checks1NoContext`, of a block that has its data. -/
def checks1NoContext (c : Checks) (block : FastBlock) : ChecksOutcome :=
  if c.checkPow ∧ ¬ c.checkProofOfWork (createHash c block) (FastBlock.readAt block.data.bytes 72 4)
  then .blockInvalid (failure "high-hash" 50)
  else if (FastBlock.readAt block.data.bytes 68 4 : ℤ) > c.getAdjustedTime + 2 * 60 * 60 then
    .blockInvalid (failure "time-too-new" 100)
  else if block.isFullBlock ∧ c.checkTransactionValidity then checkFullBlock c block
  else .blockValidHeader

/-! ## Rejections -/

/-- The checks come to an end, and set a flag. -/
def ChecksOutcome.Settled : ChecksOutcome → Prop
  | .blockValidHeader => True
  | .blockInvalid _ => True
  | .assertFalse _ => False
  | .unhandled _ => False

/-- Whatever else the checks depend on, they come to an end, and `createOldBlock` reads as many
transactions as `findTransactions` has found. -/
def NeverFatal (block : FastBlock) : Prop :=
  (∀ c, (checks1NoContext c block).Settled) ∧
    ∀ Hash found, block.findTransactions = .ok found →
      ∃ oldBlock, found.createOldBlock Hash = .ok oldBlock ∧
        oldBlock.vtx.length = found.transactions.length

/-- The data starts with a block in its canonical form that has no length above `MAX_SIZE`. -/
def WellFormed (block : FastBlock) : Prop :=
  ∃ (b : CBlock) (rest : List UInt8), b.Typed ∧ b.Readable ∧ block.data.bytes = b.serialize ++ rest

variable {c : Checks} {block found : FastBlock} {b : CBlock}

/-- The Merkle root is computed within bounds. -/
theorem exists_computeMerkleRoot (hashPair : Uint256 → Uint256 → Uint256) {l : List Uint256}
    (hlen : l.length < 2 ^ 31) : ∃ r, Merkle.computeMerkleRoot hashPair l = some r := by
  by_cases hne : l = []
  · rw [hne]
    exact ⟨_, rfl⟩
  · obtain ⟨d, m, branch, hrun, -⟩ :=
      Merkle.merkleComputation_spec hashPair hne hlen (2 ^ 32 - 1) false
    rw [Merkle.computeMerkleRoot, hrun]
    exact ⟨_, rfl⟩

/-- A block whose lengths are accepted has fewer transactions than the Merkle root has room for. -/
theorem exists_checkRoot (c : Checks) (h : b.Readable) : ∃ r, checkRoot c b = some r := by
  unfold checkRoot
  by_cases hcheck : c.checkMerkleRoot = true
  · have hlen : (b.vtx.map CTransaction.hash).length < 2 ^ 31 := by
      rw [List.length_map]
      exact lt_of_le_of_lt h.1 (by decide)
    obtain ⟨⟨r, m⟩, hroot⟩ := exists_computeMerkleRoot c.hashPair hlen
    rw [if_pos hcheck, hroot]
    simp only [Option.bind_eq_bind, Option.bind_some]
    split_ifs
    · exact ⟨_, rfl⟩
    · exact ⟨_, rfl⟩
    · exact ⟨_, rfl⟩
  · rw [if_neg hcheck]
    exact ⟨_, rfl⟩

theorem readable_updateHashes {Hash : List UInt8 → Uint256} (h : b.Readable) :
    (b.updateHashes Hash).Readable := by
  obtain ⟨hlen, htx⟩ := h
  refine ⟨by rwa [CBlock.updateHashes, List.length_map], fun tx hx => ?_⟩
  obtain ⟨tx', hx', rfl⟩ := List.mem_map.mp hx
  exact htx tx' hx'

/-- With a block that both parsers read, the checks on it come to an end. -/
theorem settled_checkFullBlock {oldBlock : CBlock} (hfind : block.findTransactions = .ok found)
    (hold : found.createOldBlock c.Hash = .ok oldBlock) (hread : oldBlock.Readable) :
    (checkFullBlock c block).Settled := by
  obtain ⟨r, hroot⟩ := exists_checkRoot c hread
  rw [checkFullBlock, hfind]
  simp only [hold, hroot]
  cases r with
  | error e => trivial
  | ok _ =>
    cases checkContents c oldBlock with
    | error e => trivial
    | ok _ => trivial

/-- **Well-formed data** is read by both parsers, and to the same number of transactions. -/
theorem WellFormed.parsed (h : WellFormed block) (hnone : block.transactions = [])
    (Hash : List UInt8 → Uint256) :
    ∃ found oldBlock, block.findTransactions = .ok found ∧
      found.createOldBlock Hash = .ok oldBlock ∧ oldBlock.Readable ∧
      oldBlock.vtx.length = found.transactions.length := by
  obtain ⟨b, rest, htyped, hread, hdata⟩ := h
  obtain ⟨found, hfind, hdata', hmap, -⟩ := FastBlock.findTransactions_spec hdata hnone
  have hold := (FastBlock.createOldBlock_spec Hash htyped (hdata'.symm ▸ hdata)).1 hread
  refine ⟨found, b.updateHashes Hash, hfind, hold, readable_updateHashes hread, ?_⟩
  have hlen := congrArg List.length hmap
  rw [List.length_map, List.length_map] at hlen
  rw [CBlock.updateHashes, List.length_map, hlen]

/-- What `createOldBlock` reads is well formed. -/
theorem wellFormed_of_createOldBlock {Hash : List UInt8 → Uint256} {oldBlock : CBlock}
    (h : block.createOldBlock Hash = .ok oldBlock) : WellFormed block := by
  unfold FastBlock.createOldBlock at h
  split at h
  · cases h
  · cases hread : CBlock.unserialize Hash block.data.bytes with
    | error what =>
      rw [hread] at h
      cases h
    | ok r =>
      obtain ⟨b, rest⟩ := r
      obtain ⟨⟨htyped, hreadable⟩, hdata⟩ := CBlock.accepts_unserialize Hash _ b rest hread
      exact ⟨b, rest, htyped, hreadable, hdata⟩

/-- Looking for the transactions leaves the data as it is. -/
theorem data_findTransactions (hnone : block.transactions = [])
    (h : block.findTransactions = .ok found) : found.data = block.data := by
  cases hn : FastBlock.readCompactSize block.data.bytes 80 with
  | error e => simp [FastBlock.findTransactions, hnone, hn, bind, Except.bind] at h
  | ok r =>
    rw [FastBlock.findTransactions_eq hnone hn, FastBlock.collect] at h
    split at h
    · cases h
    · cases hloop : FastBlock.findLoop block.data (toInt32 r.1).toNat r.2 with
      | error e =>
        rw [hloop] at h
        cases h
      | ok txs =>
        rw [hloop] at h
        obtain rfl := Except.ok.inj h
        rfl

/-- Settings under which the transactions are read. -/
def lenient : Checks where
  checkPow := false
  checkMerkleRoot := false
  checkTransactionValidity := true
  getAdjustedTime := 2 ^ 32
  blockSizeAcceptLimit := 0
  punishOversize := fun _ _ => 10
  Hash := fun _ => 0
  hashPair := fun _ _ => 0
  checkProofOfWork := fun _ _ => false

theorem checks1NoContext_lenient (hfull : block.isFullBlock = true) :
    checks1NoContext lenient block = checkFullBlock lenient block := by
  have hlt := FastBlock.readAt_lt block.data.bytes 68 4
  rw [checks1NoContext, if_neg (by simp [lenient]), if_neg, if_pos ⟨hfull, rfl⟩]
  show ¬ (FastBlock.readAt block.data.bytes 68 4 : ℤ) > 2 ^ 32 + 2 * 60 * 60
  omega

theorem not_settled_handle (fault : Fault) : ¬ (handle fault).Settled := by
  cases fault <;> exact id

/-- **When malformed blocks are not fatal.**  A buffer with more than a header is settled by the
checks, under all circumstances, if and only if it is well formed. -/
theorem neverFatal_iff (block : FastBlock) (hnone : block.transactions = [])
    (hfull : 80 < block.data.bytes.length) : NeverFatal block ↔ WellFormed block := by
  have hfull' : block.isFullBlock = true := by simpa [FastBlock.isFullBlock] using hfull
  constructor
  · rintro ⟨hsettled, -⟩
    have h := hsettled lenient
    rw [checks1NoContext_lenient hfull', checkFullBlock] at h
    cases hfind : block.findTransactions with
    | error fault =>
      rw [hfind] at h
      exact absurd h (not_settled_handle fault)
    | ok found =>
      rw [hfind] at h
      cases hold : found.createOldBlock lenient.Hash with
      | error fault =>
        simp only [hold] at h
        exact absurd h (not_settled_handle fault)
      | ok oldBlock =>
        obtain ⟨b, rest, htyped, hread, hdata⟩ := wellFormed_of_createOldBlock hold
        exact ⟨b, rest, htyped, hread, data_findTransactions hnone hfind ▸ hdata⟩
  · intro h
    refine ⟨fun c => ?_, fun Hash found hfind => ?_⟩
    · rw [checks1NoContext]
      split_ifs
      · trivial
      · trivial
      · obtain ⟨found, oldBlock, hfind, hold, hread, -⟩ := h.parsed hnone c.Hash
        exact settled_checkFullBlock hfind hold hread
      · trivial
    · obtain ⟨found', oldBlock, hfind', hold, -, hlen⟩ := h.parsed hnone Hash
      obtain rfl := Except.ok.inj (hfind.symm.trans hfind')
      exact ⟨oldBlock, hold, hlen⟩

/-- A header with all members zero, and `bytes` behind it. -/
def zeroBlock (bytes : List UInt8) (h : bytes.length < 100) : FastBlock where
  data := ⟨List.replicate 80 0 ++ bytes, by
    rw [List.length_append, List.length_replicate]
    omega⟩
  transactions := []
  size_ge := by
    rw [List.length_append, List.length_replicate]
    omega

/-- No transactions, with a number of transactions that is not in its shortest form:
`findTransactions` accepts it, `createOldBlock` does not, and the assertion fails. -/
theorem not_neverFatal_nonCanonical :
    (zeroBlock [253, 0, 0, 0] (by decide)).findTransactions
        = .ok (zeroBlock [253, 0, 0, 0] (by decide)) ∧
      checks1NoContext lenient (zeroBlock [253, 0, 0, 0] (by decide))
        = .assertFalse "non-canonical ReadCompactSize()" ∧
      ¬ NeverFatal (zeroBlock [253, 0, 0, 0] (by decide)) := by
  have hfatal : checks1NoContext lenient (zeroBlock [253, 0, 0, 0] (by decide))
      = .assertFalse "non-canonical ReadCompactSize()" := by decide +kernel
  have hread : FastBlock.readCompactSize (zeroBlock [253, 0, 0, 0] (by decide)).data.bytes 80
      = .ok (0, 83) := by decide +kernel
  have hfind := (FastBlock.findTransactions_eq rfl hread).trans
    (FastBlock.collect_eq (by decide) (show FastBlock.findLoop _ _ _ = .ok [] from rfl))
  refine ⟨hfind, hfatal, fun h => ?_⟩
  have hsettled := h.1 lenient
  rw [hfatal] at hsettled
  exact hsettled

/-- A block with three transactions that passes the checks, and whose size is too large for other
settings. -/
theorem neverFatal_threeTransactions :
    ∃ block, block.data.bytes = FastBlock.threeTransactions.serialize ∧
      (NeverFatal block ↔ WellFormed block) ∧ WellFormed block ∧
      checks1NoContext { lenient with blockSizeAcceptLimit := 1000000 } block = .blockValidHeader ∧
      checks1NoContext lenient block
        = .blockInvalid ⟨10, "bad-blk-length", .exceedsLimit, false⟩ := by
  refine ⟨⟨⟨FastBlock.threeTransactions.serialize, FastBlock.length_threeTransactions⟩, [],
    by decide +kernel⟩, rfl, neverFatal_iff _ rfl (by decide +kernel),
    ⟨FastBlock.threeTransactions, [], FastBlock.typed_threeTransactions,
      FastBlock.readable_threeTransactions, (List.append_nil _).symm⟩, ?_, ?_⟩
  · decide +kernel
  · decide +kernel

end Validation
