/-
# Blocks as bytes

`FastBlock` (`libs/server/primitives/FastBlock.cpp`) is a block in its serialised form.
`findTransactions` walks over the bytes with its own reader for compact sizes and cuts out
the transactions; `createOldBlock` reads a `CBlock` with the serialisation framework, and
`fromOldBlock` writes one.

* `transactionSize_spec` : the walk over the bytes of a transaction ends where they end;
* `findTransactions_spec` : the slices are the serialised transactions, one after the other,
  whatever comes behind them.
-/
import Hub.BufferPool
import Hub.Serialization

open ByteCodec Serialization Streaming

/-- What a function can end with besides a value: an exception with its text, a failed
assertion, or an access outside its buffer. -/
inductive Fault where
  | runtimeError (what : String)
  | lengthError
  | assertion
  | outOfBounds
  deriving DecidableEq, Repr

/-- `Tx`: bytes that are known to be a transaction.  `start` is where they start in the
buffer that they are a part of. -/
structure Tx where
  start : ℕ
  data : ConstBuffer
  deriving DecidableEq

/-- `Tx::createHash`. -/
def Tx.createHash (Hash : List UInt8 → Uint256) (tx : Tx) : Uint256 := Hash tx.data.bytes

/-- `FastBlock`.  The constructor refuses less than a header. -/
structure FastBlock where
  data : ConstBuffer
  transactions : List Tx
  size_ge : 80 ≤ data.bytes.length

namespace FastBlock

/-! ## The walk over the bytes -/

/-- A number of `k` bytes at offset `i` of the buffer. -/
def readAt (buf : List UInt8) (i k : ℕ) : ℕ := leNat (slice buf i (i + k))

/-- One of the longer forms of a compact size: a number of `k` bytes behind the first. -/
def readLong (buf : List UInt8) (posInStream k : ℕ) : Except Fault (ℕ × ℕ) :=
  if buf.length ≤ posInStream + 1 + k then
    .error (.runtimeError "readCompactSize not enough bytes")
  else .ok (readAt buf (posInStream + 1) k, posInStream + 1 + k)

/-- `readCompactSize`: the number at `posInStream` and the position behind it. -/
def readCompactSize (buf : List UInt8) (posInStream : ℕ) : Except Fault (ℕ × ℕ) :=
  match buf[posInStream]? with
  | none => .error (.runtimeError "readCompactSize not enough bytes")
  | some byte =>
      if byte < 253 then .ok (byte.toNat, posInStream + 1)
      else if byte = 253 then readLong buf posInStream 2
      else if byte = 254 then readLong buf posInStream 4
      else readLong buf posInStream 8

/-- The loops of `transactionSize`: `count` times `before` bytes, a script and `after`
bytes.  Positions are of type `size_t`. -/
def skipScripts (buf : List UInt8) (pos before after : ℕ) : ℕ → ℕ → Except Fault ℕ
  | 0, positionInStream => .ok positionInStream
  | count + 1, positionInStream => do
      let positionInStream := (positionInStream + before) % 2 ^ 64
      let (scriptLength, positionInStream) ← readCompactSize buf positionInStream
      let positionInStream := (positionInStream + (scriptLength + after)) % 2 ^ 64
      if positionInStream > buf.length + pos then
        .error (.runtimeError "transaction malformed error")
      else skipScripts buf pos before after count positionInStream

/-- `transactionSize`: the size of the transaction at `pos`, as an `int`. -/
def transactionSize (buf : List UInt8) (pos : ℕ) : Except Fault ℤ := do
  let positionInStream := pos + 4
  let (inCount, positionInStream) ← readCompactSize buf positionInStream
  let positionInStream ← skipScripts buf pos (32 + 4) 4 inCount positionInStream
  let (outCount, positionInStream) ← readCompactSize buf positionInStream
  let positionInStream ← skipScripts buf pos 8 0 outCount positionInStream
  let positionInStream : ℕ := (positionInStream + 4) % 2 ^ 64
  .ok (toInt32 ((positionInStream : ℤ) - pos))

/-- `ConstBuffer::mid`, with its assertions. -/
def mid (buf : ConstBuffer) (offset : ℕ) (length : ℤ) : Except Fault Tx :=
  if 0 ≤ length ∧ offset + length ≤ buf.bytes.length then
    .ok ⟨offset, slice buf.bytes offset (offset + length.toNat), by
      have := buf.size_lt
      rw [slice, List.length_drop, List.length_take]
      omega⟩
  else .error .assertion

/-- The loop of `findTransactions`. -/
def findLoop (data : ConstBuffer) : ℕ → ℕ → Except Fault (List Tx)
  | 0, _ => .ok []
  | count + 1, pos => do
      let txSize ← transactionSize data.bytes pos
      if (txSize + pos) % 2 ^ 64 > data.bytes.length then
        .error (.runtimeError "FastBlock::findTransactions: not enough bytes")
      else
        let tx ← mid data pos txSize
        let txs ← findLoop data count ((pos + txSize) % 2 ^ 64).toNat
        .ok (tx :: txs)

/-- The second half of `findTransactions`: the number of transactions is turned into an
`int`, and `reserve` refuses a negative one. -/
def collect (block : FastBlock) (n pos : ℕ) : Except Fault FastBlock :=
  if toInt32 n < 0 then .error .lengthError
  else do
    let txs ← findLoop block.data (toInt32 n).toNat pos
    .ok { block with transactions := txs }

/-- `FastBlock::findTransactions`. -/
def findTransactions (block : FastBlock) : Except Fault FastBlock :=
  if block.transactions ≠ [] then .ok block
  else do
    let (n, pos) ← readCompactSize block.data.bytes 80
    block.collect n pos

/-! ## Conversions -/

/-- The constructor. -/
def create (rawBlock : ConstBuffer) : Except Fault FastBlock :=
  if h : rawBlock.bytes.length < 80 then
    .error (.runtimeError "Block too small to fit header")
  else .ok ⟨rawBlock, [], by omega⟩

/-- `FastBlock::isFullBlock`. -/
def isFullBlock (block : FastBlock) : Bool := 80 < block.data.bytes.length

/-- `FastBlock::createOldBlock`. -/
def createOldBlock (Hash : List UInt8 → Uint256) (block : FastBlock) : Except Fault CBlock :=
  if ¬ block.isFullBlock then .error (.runtimeError "Not enough bytes to create a block")
  else
    match CBlock.unserialize Hash block.data.bytes with
    | .ok (answer, _) => .ok answer
    | .error what => .error (.runtimeError what)

/-- `FastBlock::fromOldBlock` with a pool of its own, which is as large as the block. -/
def fromOldBlock (block : CBlock) (h : block.serialize.length < 2 ^ 31) :
    Except Fault FastBlock :=
  match (BufferPool.create block.serialize.length h).put block.serialize with
  | some pl => create pl.commit.1
  | none => .error .assertion

/-! ## Reading a compact size -/

theorem readAt_lt (buf : List UInt8) (i k : ℕ) : readAt buf i k < 256 ^ k := by
  have hlen : (slice buf i (i + k)).length ≤ k := by
    rw [slice, List.length_drop, List.length_take]
    omega
  exact lt_of_lt_of_le (leNat_lt _) (Nat.pow_le_pow_right (by decide) hlen)

theorem readAt_of_drop {buf bytes rest : List UInt8} {i : ℕ}
    (h : buf.drop i = bytes ++ rest) : readAt buf i bytes.length = leNat bytes := by
  rw [readAt, slice, List.drop_take, Nat.add_sub_cancel_left, h, List.take_left]

theorem readLong_spec {buf rest : List UInt8} {first : UInt8} {pos k n : ℕ}
    (h : buf.drop pos = first :: leBytes k n ++ rest) (hn : n < 256 ^ k) (hrest : rest ≠ []) :
    readLong buf pos k = .ok (n, pos + 1 + k) := by
  have hlen : buf.length - pos = 1 + k + rest.length := by
    rw [← List.length_drop, h]
    simp
    omega
  have hdrop : buf.drop (pos + 1) = leBytes k n ++ rest := by
    rw [← List.drop_drop, h]
    rfl
  have hpos := List.length_pos_iff.mpr hrest
  have hread := readAt_of_drop hdrop
  rw [length_leBytes, leNat_leBytes k n hn] at hread
  rw [readLong, if_neg (by omega), hread]

/-- **The reader meets the writer**, when a longer form is not the end of the buffer. -/
theorem readCompactSize_spec {buf rest : List UInt8} {pos n : ℕ} (hn : n < 2 ^ 64)
    (h : buf.drop pos = writeCompactSize n ++ rest) (hrest : n < 253 ∨ rest ≠ []) :
    readCompactSize buf pos = .ok (n, pos + (writeCompactSize n).length) := by
  have hfirst : ∀ {first : UInt8} {bytes : List UInt8}, buf.drop pos = first :: bytes →
      buf[pos]? = some first := by
    intro first bytes hd
    rw [← List.head?_drop, hd]
    rfl
  unfold writeCompactSize at h ⊢
  split_ifs at h ⊢ with h₁ h₂ h₃
  · have hbyte := hfirst h
    have hlt : UInt8.ofNat n < 253 := by
      rw [UInt8.lt_iff_toNat_lt, UInt8.toNat_ofNat']
      show n % 256 < 253
      omega
    have hval : (UInt8.ofNat n).toNat = n := by
      rw [UInt8.toNat_ofNat']
      omega
    rw [readCompactSize, hbyte]
    simp only [hlt, if_true, hval]
    rfl
  · rw [readCompactSize, hfirst h]
    exact readLong_spec h (by omega) (hrest.resolve_left h₁)
  · rw [readCompactSize, hfirst h]
    exact readLong_spec h (by omega) (hrest.resolve_left h₁)
  · rw [readCompactSize, hfirst h]
    exact readLong_spec h (by omega) (hrest.resolve_left h₁)

/-! ## The size of a transaction -/

theorem length_of_drop {buf bytes rest : List UInt8} {p : ℕ} (h : buf.drop p = bytes ++ rest)
    (hrest : rest ≠ []) : p + bytes.length + rest.length = buf.length := by
  have hlen := congrArg List.length h
  have hpos := List.length_pos_iff.mpr hrest
  rw [List.length_drop, List.length_append] at hlen
  omega

theorem drop_of_drop {buf bytes rest : List UInt8} {p : ℕ} (h : buf.drop p = bytes ++ rest) :
    buf.drop (p + bytes.length) = rest := by
  rw [← List.drop_drop, h, List.drop_left]

/-- The loops end behind the inputs, or behind the outputs. -/
theorem skipScripts_spec {α : Type} (write script : α → List UInt8)
    {buf : List UInt8} (hbuf : buf.length < 2 ^ 31) (pos before after : ℕ) :
    ∀ (items : List α) (p : ℕ) {rest : List UInt8},
      (∀ x ∈ items, ∃ b a, write x = b ++ (writeScript (script x) ++ a) ∧
        b.length = before ∧ a.length = after) →
      buf.drop p = items.flatMap write ++ rest → rest ≠ [] →
      skipScripts buf pos before after items.length p
        = .ok (p + (items.flatMap write).length) := by
  intro items
  induction items with
  | nil =>
    intro p rest _ _ _
    rfl
  | cons x items ih =>
    intro p rest hwrite hdrop hrest
    obtain ⟨b, a, hx, rfl, rfl⟩ := hwrite x List.mem_cons_self
    have hlen := length_of_drop hdrop hrest
    have hpos := List.length_pos_iff.mpr hrest
    rw [List.flatMap_cons, List.append_assoc] at hdrop
    have htail := drop_of_drop hdrop
    rw [hx, writeScript] at hdrop
    simp only [List.append_assoc] at hdrop
    have hsize : (write x).length = b.length + ((writeCompactSize (script x).length).length
        + ((script x).length + a.length)) := by
      rw [hx, writeScript]
      simp only [List.length_append]
      omega
    rw [List.flatMap_cons, List.length_append] at hlen
    have hread : readCompactSize buf (p + b.length)
        = .ok ((script x).length, p + b.length + (writeCompactSize (script x).length).length) := by
      apply readCompactSize_spec (by omega) (drop_of_drop hdrop)
      right
      simp [hrest]
    have hend : p + b.length + (writeCompactSize (script x).length).length
        + ((script x).length + a.length) = p + (write x).length := by omega
    rw [List.length_cons, skipScripts, Nat.mod_eq_of_lt (by omega), hread]
    simp only [bind, Except.bind]
    rw [Nat.mod_eq_of_lt (by omega), hend, if_neg (by omega),
      ih _ (fun y hy => hwrite y (List.mem_cons_of_mem _ hy)) htail hrest, List.flatMap_cons,
      List.length_append, Nat.add_assoc]

/-- **The size of a transaction** is the number of its bytes. -/
theorem transactionSize_spec {buf rest : List UInt8} (hbuf : buf.length < 2 ^ 31) {pos : ℕ}
    {tx : CTransaction} (h : buf.drop pos = tx.serialize ++ rest) :
    transactionSize buf pos = .ok (tx.serialize.length : ℤ) := by
  have hlen : pos + tx.serialize.length + rest.length = buf.length := by
    have hd := congrArg List.length h
    have hpos := tx.length_serialize_pos
    rw [List.length_drop, List.length_append] at hd
    omega
  obtain ⟨hvin, hvout, -, -⟩ := CTransaction.length_le_serialize tx
  have hsize : tx.serialize.length = 4 + ((writeCompactSize tx.vin.length).length
      + (tx.vin.flatMap CTxIn.serialize).length + ((writeCompactSize tx.vout.length).length
      + (tx.vout.flatMap CTxOut.serialize).length + 4)) := by
    simp only [CTransaction.serialize, writeVector, List.length_append, length_leBytes]
  simp only [CTransaction.serialize, writeVector, List.append_assoc] at h
  have hlock : leBytes 4 tx.nLockTime.toNat ++ rest ≠ [] := by simp [leBytes]
  have h₁ := drop_of_drop h
  rw [length_leBytes] at h₁
  have h₂ := drop_of_drop h₁
  have h₃ := drop_of_drop h₂
  have h₄ := drop_of_drop h₃
  have hin : readCompactSize buf (pos + 4) = _ :=
    readCompactSize_spec (by omega) h₁ (.inr (by simp [leBytes]))
  have hins := skipScripts_spec CTxIn.serialize CTxIn.scriptSig hbuf pos (32 + 4) 4
    tx.vin _ (fun i _ => ⟨i.prevout.serialize, leBytes 4 i.nSequence.toNat, rfl,
      by simp [COutPoint.serialize], by simp⟩) h₂ (by simp [leBytes])
  have hout : readCompactSize buf _ = _ :=
    readCompactSize_spec (by omega) h₃ (.inr (by simp [leBytes]))
  have houts := skipScripts_spec CTxOut.serialize CTxOut.scriptPubKey hbuf pos 8 0 tx.vout
    _
    (fun o _ => ⟨leBytes 8 (o.nValue % 2 ^ 64).toNat, [], by
      rw [List.append_nil]
      rfl, by simp, rfl⟩) h₄ hlock
  rw [transactionSize, hin]
  simp only [bind, Except.bind, hins, hout, houts]
  rw [Nat.mod_eq_of_lt (by omega)]
  rw [toInt32_of_lt (by omega) (by omega)]
  congr 1
  omega

/-! ## The transactions of a block -/

/-- The slices follow each other from offset `p` up to offset `e`. -/
def Contiguous : ℕ → List Tx → ℕ → Prop
  | p, [], e => p = e
  | p, tx :: txs, e => tx.start = p ∧ Contiguous (p + tx.data.bytes.length) txs e

theorem mid_spec (buf : ConstBuffer) {offset : ℕ} {bytes rest : List UInt8}
    (h : buf.bytes.drop offset = bytes ++ rest)
    (hlen : offset + bytes.length ≤ buf.bytes.length) :
    ∃ tx, mid buf offset bytes.length = .ok tx ∧ tx.start = offset ∧ tx.data.bytes = bytes := by
  refine ⟨_, dif_pos ⟨by omega, by omega⟩, rfl, ?_⟩
  show slice buf.bytes offset (offset + bytes.length) = bytes
  rw [slice, List.drop_take, Nat.add_sub_cancel_left, h, List.take_left]

/-- The loop cuts the serialised transactions out one by one. -/
theorem findLoop_spec (data : ConstBuffer) {rest : List UInt8} :
    ∀ (vtx : List CTransaction) (pos : ℕ), pos ≤ data.bytes.length →
    data.bytes.drop pos = vtx.flatMap CTransaction.serialize ++ rest →
    ∃ txs, findLoop data vtx.length pos = .ok txs ∧
      txs.map (fun tx => tx.data.bytes) = vtx.map CTransaction.serialize ∧
      Contiguous pos txs (data.bytes.length - rest.length) := by
  intro vtx
  induction vtx with
  | nil =>
    intro pos hle h
    have hlen := congrArg List.length h
    rw [List.length_drop, List.flatMap_nil, List.nil_append] at hlen
    refine ⟨[], rfl, rfl, ?_⟩
    show pos = data.bytes.length - rest.length
    omega
  | cons tx vtx ih =>
    intro pos hle h
    rw [List.flatMap_cons, List.append_assoc] at h
    have hlt := data.size_lt
    have hlen : pos + tx.serialize.length
        + ((vtx.flatMap CTransaction.serialize).length + rest.length) = data.bytes.length := by
      have hd := congrArg List.length h
      rw [List.length_drop, List.length_append, List.length_append] at hd
      omega
    obtain ⟨t, ht, hstart, hbytes⟩ := mid_spec data h (by omega)
    obtain ⟨txs, htxs, hmap, hcont⟩ := ih (pos + tx.serialize.length) (by omega) (drop_of_drop h)
    have hnext : (((pos : ℤ) + (tx.serialize.length : ℤ)) % 2 ^ 64).toNat
        = pos + tx.serialize.length := by omega
    refine ⟨t :: txs, ?_, ?_, hstart, ?_⟩
    · rw [List.length_cons, findLoop, transactionSize_spec hlt h]
      simp only [bind, Except.bind]
      rw [if_neg (by omega), ht, hnext, htxs]
    · rw [List.map_cons, List.map_cons, hbytes, hmap]
    · rw [hbytes]
      exact hcont

/-- A block in its serialised form, and how it was made. -/
theorem fromOldBlock_spec (b : CBlock) (h : b.serialize.length < 2 ^ 31) :
    ∃ block, fromOldBlock b h = .ok block ∧ block.data.bytes = b.serialize ∧
      block.transactions = [] := by
  have hcap : b.serialize.length ≤ (BufferPool.create b.serialize.length h).capacity := by
    simp [BufferPool.create, BufferPool.capacity]
  obtain ⟨pool, hput, hused, -⟩ := BufferPool.put_spec _ _ hcap
  have hbytes : pool.commit.1.bytes = b.serialize := by
    rw [BufferPool.bytes_commit, hused]
    simp [BufferPool.create, BufferPool.used, slice]
  have hsize : ¬ pool.commit.1.bytes.length < 80 := by
    rw [hbytes, CBlock.serialize, List.length_append, CBlockHeader.length_serialize]
    omega
  refine ⟨⟨pool.commit.1, [], by omega⟩, ?_, hbytes, rfl⟩
  rw [fromOldBlock, hput]
  exact dif_neg hsize

/-- What follows the header. -/
theorem drop_header {b : CBlock} {block : FastBlock} {rest : List UInt8}
    (hdata : block.data.bytes = b.serialize ++ rest) :
    block.data.bytes.drop 80
      = writeCompactSize b.vtx.length ++ (b.vtx.flatMap CTransaction.serialize ++ rest) := by
  have hlen := b.header.length_serialize
  rw [hdata, CBlock.serialize, List.append_assoc, writeVector, List.append_assoc]
  exact List.drop_left' hlen

theorem collect_eq {block : FastBlock} {n pos : ℕ} {txs : List Tx} (hn : n < 2 ^ 31)
    (hloop : findLoop block.data n pos = .ok txs) :
    block.collect n pos = .ok { block with transactions := txs } := by
  have hint : toInt32 n = n := toInt32_of_lt (by omega) (by omega)
  rw [collect, hint, if_neg (by omega), Int.toNat_natCast, hloop]
  rfl

theorem findTransactions_eq {block : FastBlock} {n pos : ℕ} (hnone : block.transactions = [])
    (hread : readCompactSize block.data.bytes 80 = .ok (n, pos)) :
    block.findTransactions = block.collect n pos := by
  simp [findTransactions, hnone, hread, bind, Except.bind]

/-- **The transactions are found**, whatever comes after them. -/
theorem findTransactions_spec {b : CBlock} {block : FastBlock} {rest : List UInt8}
    (hdata : block.data.bytes = b.serialize ++ rest) (hnone : block.transactions = []) :
    ∃ block', block.findTransactions = .ok block' ∧ block'.data = block.data ∧
      block'.transactions.map (fun tx => tx.data.bytes) = b.vtx.map CTransaction.serialize ∧
      Contiguous (80 + (writeCompactSize b.vtx.length).length) block'.transactions
        (block.data.bytes.length - rest.length) := by
  have hlt := block.data.size_lt
  have hhead := drop_header hdata
  have hlen : 80 + (writeCompactSize b.vtx.length).length
      + ((b.vtx.flatMap CTransaction.serialize).length + rest.length)
        = block.data.bytes.length := by
    have hd := congrArg List.length hhead
    have hge := block.size_ge
    rw [List.length_drop, List.length_append, List.length_append] at hd
    omega
  have hcount := length_le_flatMap b.vtx CTransaction.length_serialize_pos
  have hread : readCompactSize block.data.bytes 80 = _ :=
    readCompactSize_spec (by omega) hhead (by
      by_cases h : b.vtx.length < 253
      · exact .inl h
      · right
        rw [← List.length_pos_iff, List.length_append]
        omega)
  obtain ⟨txs, htxs, hmap, hcont⟩ := findLoop_spec block.data b.vtx _ (by omega)
    (drop_of_drop hhead)
  refine ⟨{ block with transactions := txs }, ?_, rfl, hmap, hcont⟩
  rw [findTransactions_eq hnone hread]
  exact collect_eq (by omega) htxs

theorem createOldBlock_spec (Hash : List UInt8 → Uint256) {b : CBlock} (htyped : b.Typed)
    {block : FastBlock} {rest : List UInt8} (hdata : block.data.bytes = b.serialize ++ rest) :
    (b.Readable → block.createOldBlock Hash = .ok (b.updateHashes Hash)) ∧
    (¬ b.Readable → block.createOldBlock Hash = .error (.runtimeError tooLarge)) := by
  have hfull : block.isFullBlock = true := by
    have hpos := length_writeCompactSize_pos b.vtx.length
    have hlen := congrArg List.length (drop_header hdata)
    rw [List.length_drop, List.length_append] at hlen
    simp only [isFullBlock, decide_eq_true_eq]
    omega
  have hlt := block.data.size_lt
  constructor
  · intro h
    have hread := CBlock.reads_unserialize Hash htyped h rest
    rw [createOldBlock, if_neg (by simpa using hfull), hdata, hread]
  · intro h
    have hsize : b.serialize.length < 2 ^ 64 := by
      have hlen := congrArg List.length hdata
      rw [List.length_append] at hlen
      omega
    have hfail := CBlock.fails_unserialize Hash htyped hsize h rest
    rw [createOldBlock, if_neg (by simpa using hfull), hdata, hfail]

/-- **The two block parsers agree.**  The slices that `findTransactions` cuts out are the
serialised transactions, one after the other up to the end of the block.  `createOldBlock`
returns the block, unless a vector or a script in it has more than `MAX_SIZE` elements. -/
theorem findTransactions_fromOldBlock (Hash : List UInt8 → Uint256) (b : CBlock)
    (htyped : b.Typed) (hsize : b.serialize.length < 2 ^ 31) :
    ∃ block block', fromOldBlock b hsize = .ok block ∧ block.findTransactions = .ok block' ∧
      block'.transactions.length = b.vtx.length ∧
      block'.transactions.map (fun tx => tx.data.bytes) = b.vtx.map CTransaction.serialize ∧
      block'.transactions.map (Tx.createHash Hash) = b.vtx.map (fun tx => Hash tx.serialize) ∧
      Contiguous (80 + (writeCompactSize b.vtx.length).length) block'.transactions
        block'.data.bytes.length ∧
      (b.Readable → b.Hashed Hash → block'.createOldBlock Hash = .ok b) ∧
      (¬ b.Readable → block'.createOldBlock Hash = .error (.runtimeError tooLarge)) := by
  obtain ⟨block, hblock, hdata, hnone⟩ := fromOldBlock_spec b hsize
  rw [← List.append_nil b.serialize] at hdata
  obtain ⟨block', hfind, hdata', hmap, hcont⟩ := findTransactions_spec hdata hnone
  obtain ⟨hok, herror⟩ := createOldBlock_spec Hash htyped (hdata'.symm ▸ hdata)
  refine ⟨block, block', hblock, hfind, ?_, hmap, ?_, ?_, ?_, herror⟩
  · simpa using congrArg List.length hmap
  · have hhash := congrArg (List.map Hash) hmap
    rw [List.map_map, List.map_map] at hhash
    exact hhash
  · rw [hdata']
    exact hcont
  · intro hread hhashed
    rw [hok hread, CBlock.updateHashes_of_hashed Hash hhashed]

/-- A header with all members zero. -/
def zeroHeader : CBlockHeader := ⟨0, 0, 0, 0, 0, 0⟩

/-- A transaction with one input and one output that carries `script`. -/
def carrier (script : List UInt8) : CTransaction where
  hash := 0
  nVersion := 1
  vin := [⟨⟨0, 0xFFFFFFFF⟩, [], 0⟩]
  vout := [⟨0, script⟩]
  nLockTime := 0

theorem typed_carrier (script : List UInt8) : (carrier script).Typed := by
  simp [carrier, CTransaction.Typed]

theorem length_serialize_carrier {script : List UInt8} (h : script.length < 2 ^ 30) :
    (CBlock.mk zeroHeader [carrier script]).serialize.length < 2 ^ 31 := by
  have hcompact : ∀ n, CTransaction.sizeOfCompactSize n ≤ 9 := by
    intro n
    unfold CTransaction.sizeOfCompactSize
    split_ifs <;> simp
  have h₁ := hcompact 1
  have h₂ := hcompact script.length
  simp only [CBlock.serialize, writeVector, List.length_append, CBlockHeader.length_serialize,
    length_writeCompactSize, List.flatMap_cons, List.flatMap_nil, List.length_cons,
    List.length_nil, CTransaction.length_serialize, CTransaction.serializeSize, carrier,
    List.map_cons, List.map_nil, List.sum_cons, List.sum_nil, Nat.zero_add]
  have h₃ := hcompact 0
  omega

/-- A block with a coinbase, a transaction that spends two coins, and one with empty scripts. -/
def threeTransactions : CBlock where
  header := zeroHeader
  vtx := [
    ⟨0, 1, [⟨⟨0, 0xFFFFFFFF⟩, [0x51, 0x51], 0⟩], [⟨50, [0x6a]⟩], 0⟩,
    ⟨0, 2, [⟨⟨1, 0⟩, [0x51], 7⟩, ⟨⟨1, 3⟩, [], 0xFFFFFFFF⟩],
      [⟨5, [0x6a]⟩, ⟨1, []⟩, ⟨2, [0x51, 0x52]⟩], 9⟩,
    ⟨0, 1, [⟨⟨2, 0⟩, [], 0⟩], [⟨3, []⟩], 0⟩]

theorem typed_threeTransactions : threeTransactions.Typed := by
  simp [threeTransactions, CBlock.Typed, CTransaction.Typed]

theorem readable_threeTransactions : threeTransactions.Readable := by
  simp [threeTransactions, CBlock.Readable, CTransaction.Readable, maxSize]

theorem length_threeTransactions : threeTransactions.serialize.length < 2 ^ 31 := by
  decide +kernel

theorem findTransactions_fromOldBlock_threeTransactions :
    ∃ block block',
      fromOldBlock threeTransactions length_threeTransactions = .ok block ∧
      block.findTransactions = .ok block' ∧
      block'.transactions.map (fun tx => tx.data.bytes)
        = threeTransactions.vtx.map CTransaction.serialize ∧
      block'.createOldBlock (fun _ => 0) = .ok threeTransactions := by
  obtain ⟨block, block', h₁, h₂, -, h₃, -, -, h₄, -⟩ :=
    findTransactions_fromOldBlock (fun _ => 0) threeTransactions typed_threeTransactions
      length_threeTransactions
  refine ⟨block, block', h₁, h₂, h₃, h₄ readable_threeTransactions ?_⟩
  simp [threeTransactions, CBlock.Hashed]

/-- A script of more than `MAX_SIZE` bytes is written and found, but not read. -/
theorem not_createOldBlock_carrier :
    let b : CBlock := ⟨zeroHeader, [carrier (List.replicate (maxSize + 1) 0)]⟩
    b.Typed ∧ b.Hashed (fun _ => 0) ∧ ∃ hsize : b.serialize.length < 2 ^ 31, ∃ block,
      fromOldBlock b hsize = .ok block ∧
      block.createOldBlock (fun _ => 0) = .error (.runtimeError tooLarge) := by
  intro b
  have hlen : (List.replicate (maxSize + 1) (0 : UInt8)).length = maxSize + 1 :=
    List.length_replicate
  have htyped : b.Typed := by
    intro tx htx
    rw [List.mem_singleton.mp htx]
    exact typed_carrier _
  have hhashed : b.Hashed (fun _ => 0) := by
    intro tx htx
    rw [List.mem_singleton.mp htx]
    rfl
  have hsize : b.serialize.length < 2 ^ 31 := by
    apply length_serialize_carrier
    rw [hlen]
    decide
  refine ⟨htyped, hhashed, hsize, ?_⟩
  obtain ⟨block, hblock, hdata, -⟩ := fromOldBlock_spec b hsize
  rw [← List.append_nil b.serialize] at hdata
  refine ⟨block, hblock, (createOldBlock_spec _ htyped hdata).2 ?_⟩
  rintro ⟨-, hread⟩
  have hscript := (hread _ List.mem_cons_self).2.2 _ List.mem_cons_self
  rw [hlen] at hscript
  omega

end FastBlock
