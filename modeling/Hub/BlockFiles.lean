/-
# The block files

Blocks and undo blocks are appended to the files `blk*.dat` and `rev*.dat`
(`Blocks::DBPrivate::writeBlock` and `loadBlock` in `libs/server/BlocksDB.cpp`).  A record is
the magic of the network, the size of the block and the block; an undo block has a checksum
behind it.  Files are made larger in chunks and end in zeros.

The model has the contents of the files; a memory map covers the file as it is at the time of
the call.  `DataFile::filesize` is an `int`, and the sizes that are computed are of 32 bits.
An exception, a failed assertion and a write outside of the map are errors.

* `grownSize_spec` : when the growing of a file stops;
* `Inv` : a file is the records that were written to it, in order, and zeros;
* `roundTrip_iff_fits` : the records of a run can be read back exactly as long as no file of
  undo blocks has to grow beyond its first size of at least 2 GiB.
-/
import Hub.FastBlock
import Hub.FrameFile
import Hub.Runs

open ByteCodec Streaming

/-- `MAX_BLOCKFILE_SIZE`. -/
def maxBlockFileSize : ℕ := 0x8000000

/-- `CBlockFileInfo`. -/
structure CBlockFileInfo where
  nBlocks : ℕ
  nSize : ℕ
  nUndoSize : ℕ
  deriving DecidableEq, Repr

/-- `CBlockFileInfo::SetNull`. -/
def CBlockFileInfo.null : CBlockFileInfo := ⟨0, 0, 0⟩

/-- `CDiskBlockPos`. -/
structure CDiskBlockPos where
  nFile : ℕ
  nPos : ℕ
  deriving DecidableEq, Repr

/-- The networks that `chainparams.cpp` knows. -/
inductive CBaseChainParams where
  | main
  | testnet
  | regtest
  deriving DecidableEq, Repr

/-- `CChainParams::MessageStart`. -/
def CBaseChainParams.messageStart : CBaseChainParams → List UInt8
  | main => [0xf9, 0xbe, 0xb4, 0xd9]
  | testnet => [0x0b, 0x11, 0x09, 0x07]
  | regtest => [0xfa, 0xbf, 0xb5, 0xda]

@[simp] theorem CBaseChainParams.length_messageStart (net : CBaseChainParams) :
    net.messageStart.length = 4 := by
  cases net <;> rfl

namespace Blocks

/-- `Blocks::BlockType`. -/
inductive BlockType where
  | forwardBlock
  | revertBlock
  deriving DecidableEq, Repr

/-- `BLOCKFILE_CHUNK_SIZE` and `UNDOFILE_CHUNK_SIZE`. -/
def BlockType.chunkSize : BlockType → ℕ
  | forwardBlock => 0x1000000
  | revertBlock => 0x100000

/-- The members of `Blocks::DBPrivate` and of the file system that the block files are made
of.  `files` has the files `blk` and `rev` of each number. -/
structure DBPrivate where
  vinfoBlockFile : List CBlockFileInfo
  nLastBlockFile : ℕ
  files : BlockType → ℕ → Option (List UInt8)

end Blocks

/-- What `AddBlock` and the two additions to `posInFile` leave; `size` bytes were written. -/
def CBlockFileInfo.added (info : CBlockFileInfo) (type : Blocks.BlockType) (size : ℕ) :
    CBlockFileInfo :=
  match type with
  | .forwardBlock =>
      { info with nBlocks := (info.nBlocks + 1) % 2 ^ 32, nSize := (info.nSize + size) % 2 ^ 32 }
  | .revertBlock => { info with nUndoSize := (info.nUndoSize + size) % 2 ^ 32 }

namespace Blocks.DBPrivate

/-! ## The code -/

/-- An empty store. -/
def empty : DBPrivate := ⟨[], 0, fun _ _ => none⟩

/-- `std::vector::resize`. -/
def resize (v : List CBlockFileInfo) (n : ℕ) : List CBlockFileInfo :=
  v.take n ++ List.replicate (n - v.length) CBlockFileInfo.null

/-- The information about a file. -/
def info (db : DBPrivate) (nFile : ℕ) : CBlockFileInfo :=
  db.vinfoBlockFile.getD nFile CBlockFileInfo.null

/-- `posInFile`: the number of bytes in use. -/
def posInFile (db : DBPrivate) (type : BlockType) (nFile : ℕ) : ℕ :=
  match type with
  | .forwardBlock => (db.info nFile).nSize
  | .revertBlock => (db.info nFile).nUndoSize

/-- What `mapFile` returns in `size_out` for a file of `size` bytes: the size goes through an
`int`. -/
def sizeOut (size : ℕ) : ℕ := (toInt32 size % 2 ^ 64).toNat

/-- The first part of `writeBlock`: the number of the file, and whether it is a new one. -/
def chooseFile (db : DBPrivate) (blockSize : ℕ) (type : BlockType) (nFile : ℕ) :
    DBPrivate × ℕ × Bool :=
  let last := db.nLastBlockFile
  if db.vinfoBlockFile.length ≤ last then
    ({ db with vinfoBlockFile := resize db.vinfoBlockFile (last + 1) },
      if type = .forwardBlock then last else nFile, true)
  else if type = .forwardBlock ∧
      ((db.info last).nSize + blockSize + 8) % 2 ^ 32 > maxBlockFileSize then
    ({ db with
      vinfoBlockFile := resize db.vinfoBlockFile (last + 1 + 1), nLastBlockFile := last + 1 },
      last + 1, true)
  else if type = .revertBlock ∧ last < nFile then
    ({ db with
      vinfoBlockFile := resize db.vinfoBlockFile (max (last + 1) nFile + 1)
      nLastBlockFile := max (last + 1) nFile }, nFile, true)
  else (db, if type = .forwardBlock then last else nFile, false)

/-- The size of the file when it has grown enough for `need` bytes. -/
def grownSize (type : BlockType) (need size : ℕ) : ℕ :=
  if need % 2 ^ 32 ≥ sizeOut size then grownSize type need (size + type.chunkSize) else size
  termination_by 2 ^ 32 - size % 2 ^ 32
  decreasing_by
    rename_i h
    have hlt : size % 2 ^ 32 < 2 ^ 31 := by
      by_contra hge
      simp only [sizeOut, toInt32, Int.bmod_def] at h
      omega
    cases type <;> simp only [BlockType.chunkSize] <;> omega

/-- The checksum behind an undo block; `Hash` is the hash that `CHashWriter` computes. -/
def checksum (Hash : List UInt8 → Uint256) (blockHash : Uint256) (block : List UInt8) :
    List UInt8 :=
  leBytes 32 (Hash (leBytes 32 blockHash.toNat ++ block)).toNat

/-- The bytes of a record. -/
def frameOf (Hash : List UInt8 → Uint256) (net : CBaseChainParams) (block : List UInt8)
    (blockHash : Option Uint256) : List UInt8 :=
  net.messageStart ++ (leBytes 4 block.length ++ (block ++
    (match blockHash with
      | none => []
      | some h => checksum Hash h block)))

/-- The file that is written to: a new one of zeros, or the one that is there. -/
def onDisk (db : DBPrivate) (block : List UInt8) (type : BlockType) (nFile : ℕ) (newFile : Bool) :
    Option (List UInt8) :=
  if newFile ∨ (type = .revertBlock ∧ db.posInFile type nFile = 0) then
    some (List.replicate (max (block.length + 8) type.chunkSize) 0)
  else db.files type nFile

/-- The second part of `writeBlock`: the file is made if it is new, grows and gets the
record. -/
def appendTo (Hash : List UInt8 → Uint256) (net : CBaseChainParams) (db : DBPrivate)
    (block : List UInt8) (type : BlockType) (blockHash : Option Uint256) (nFile : ℕ) (newFile : Bool) :
    Except Fault (DBPrivate × CDiskBlockPos) :=
  let used := db.posInFile type nFile
  match db.onDisk block type nFile newFile with
  | none => .error (.runtimeError "Failed to open file")
  | some file =>
      let need := used + block.length + 8 + (if type = .forwardBlock then 0 else 32)
      let file := file ++ List.replicate (grownSize type need file.length - file.length) 0
      let frame := frameOf Hash net block blockHash
      if used + frame.length ≤ file.length then
        .ok ({ db with
          vinfoBlockFile :=
            db.vinfoBlockFile.set nFile ((db.info nFile).added type frame.length)
          files := fun t n =>
            if t = type ∧ n = nFile then some (writeAt file used frame) else db.files t n },
          ⟨nFile, (used + 8) % 2 ^ 32⟩)
      else .error .outOfBounds

/-- `Blocks::DBPrivate::writeBlock`.  An undo block comes with its hash and its file. -/
def writeBlock (Hash : List UInt8 → Uint256) (net : CBaseChainParams) (db : DBPrivate)
    (block : ConstBuffer) (nFile : ℕ) (type : BlockType) (blockHash : Option Uint256) :
    Except Fault (DBPrivate × CDiskBlockPos) :=
  if ¬ block.bytes.length < maxBlockFileSize - 8 then .error .assertion
  else
    let (db, nFile, newFile) := db.chooseFile block.bytes.length type nFile
    if ¬ (nFile ≤ db.nLastBlockFile ∧ nFile < db.vinfoBlockFile.length) then .error .assertion
    else if type = .revertBlock ∧ blockHash = none then .error .assertion
    else db.appendTo Hash net block.bytes type blockHash nFile newFile

/-- The number of bytes behind a block. -/
def trailerSize (blockHash : Option Uint256) : ℕ := if blockHash = none then 0 else 32

/-- The checksum test of `loadBlock`, and the bytes that it returns. -/
def verified (Hash : List UInt8 → Uint256) (file : List UInt8) (nPos blockSize : ℕ)
    (blockHash : Option Uint256) : Except Fault (List UInt8) :=
  if file.length < nPos + blockSize + trailerSize blockHash then .error .outOfBounds
  else
    let block := slice file nPos (nPos + blockSize)
    match blockHash with
    | none => .ok block
    | some h =>
        if slice file (nPos + blockSize) (nPos + blockSize + 32) = checksum Hash h block then
          .ok block
        else .error (.runtimeError "BlocksDB::loadUndoBlock, checkum mismatch")

/-- `Blocks::DBPrivate::loadBlock`. -/
def loadBlock (Hash : List UInt8 → Uint256) (db : DBPrivate) (pos : CDiskBlockPos)
    (type : BlockType) (blockHash : Option Uint256) : Except Fault (List UInt8) :=
  if pos.nPos < 4 then .error (.runtimeError "Blocks::loadBlock got Database corruption")
  else
    match db.files type pos.nFile with
    | none => .error (.runtimeError "Failed to memmap block")
    | some file =>
        if pos.nPos ≥ sizeOut file.length then
          .error (.runtimeError "position outside of file")
        else if file.length < pos.nPos then .error .outOfBounds
        else
          let blockSize := FastBlock.readAt file (pos.nPos - 4) 4
          if (pos.nPos + blockSize + trailerSize blockHash) % 2 ^ 32 > sizeOut file.length then
            .error (.runtimeError "block sized bigger than file")
          else if blockHash ≠ none ∧ type ≠ .revertBlock then .error .assertion
          else verified Hash file pos.nPos blockSize blockHash

end Blocks.DBPrivate

/-! ## Runs -/

namespace Blocks

/-- A call of `DB::writeBlock` or of `DB::writeUndoBlock`. -/
inductive Write where
  | block (block : FastBlock)
  | undoBlock (block : ConstBuffer) (blockHash : Uint256) (fileIndex : ℕ)

/-- What a call has written, and the position that it returned. -/
structure Record where
  type : BlockType
  block : ConstBuffer
  blockHash : Option Uint256
  pos : CDiskBlockPos

namespace Record

/-- The bytes on disk. -/
def frame (Hash : List UInt8 → Uint256) (net : CBaseChainParams) (r : Record) : List UInt8 :=
  DBPrivate.frameOf Hash net r.block.bytes r.blockHash

/-- Where they start. -/
def start (r : Record) : ℕ := r.pos.nPos - 8

/-- Whether they are in the file `nFile` of the type. -/
def inFile (type : BlockType) (nFile : ℕ) (r : Record) : Bool :=
  r.type = type ∧ r.pos.nFile = nFile

/-- `DB::loadBlock` or `DB::loadUndoBlock` at the position of the record. -/
def load (Hash : List UInt8 → Uint256) (db : DBPrivate) (r : Record) :
    Except Fault (List UInt8) :=
  db.loadBlock Hash r.pos r.type r.blockHash

/-- The bytes of the one are all in front of the bytes of the other, if they are in the same
file. -/
def Disjoint (Hash : List UInt8 → Uint256) (net : CBaseChainParams) (r r' : Record) : Prop :=
  r.type = r'.type → r.pos.nFile = r'.pos.nFile →
    r.start + (r.frame Hash net).length ≤ r'.start ∨ r'.start + (r'.frame Hash net).length ≤ r.start

end Record

section Runs

variable (Hash : List UInt8 → Uint256) (net : CBaseChainParams)

/-- `DB::writeBlock` and `DB::writeUndoBlock`. -/
def Write.apply (db : DBPrivate) : Write → Except Fault (DBPrivate × Record)
  | .block b =>
      if ¬ b.isFullBlock then .error .assertion
      else do
        let (db, pos) ← db.writeBlock Hash net b.data 0 .forwardBlock none
        .ok (db, ⟨.forwardBlock, b.data, none, pos⟩)
  | .undoBlock b blockHash fileIndex =>
      if b.bytes.length = 0 then .error .assertion
      else do
        let (db, pos) ← db.writeBlock Hash net b fileIndex .revertBlock (some blockHash)
        .ok (db, ⟨.revertBlock, b, some blockHash, pos⟩)

/-- The store with what was written to it so far. -/
abbrev Store := DBPrivate × List Record

/-- One call; an error ends the run. -/
def Store.step (s : Store) (w : Write) : Option Store :=
  match w.apply Hash net s.1 with
  | .ok (db, r) => some (db, s.2 ++ [r])
  | .error _ => none

/-- The calls that are made: with full blocks and with undo blocks that are not empty, all
of them small enough for a file; an undo block goes to the file of an earlier block. -/
def Store.Legal (s : Store) : Write → Prop
  | .block b => b.isFullBlock ∧ b.data.bytes.length < maxBlockFileSize - 8
  | .undoBlock b _ fileIndex => 0 < b.bytes.length ∧ b.bytes.length < maxBlockFileSize - 8 ∧
      ∃ r ∈ s.2, r.inFile .forwardBlock fileIndex

/-- The first size of at least `2 ^ 31` bytes that a file of `size` bytes has when it
grows in chunks. -/
def growthLimit (type : BlockType) (size : ℕ) : ℕ :=
  size + type.chunkSize * ((2 ^ 31 - size + (type.chunkSize - 1)) / type.chunkSize)

/-- The size of the file that an undo block is written to, before it grows. -/
def Store.undoFileSize (s : Store) (blockSize fileIndex : ℕ) : ℕ :=
  if s.1.posInFile .revertBlock fileIndex = 0 then
    max (blockSize + 8) BlockType.revertBlock.chunkSize
  else ((s.1.files .revertBlock fileIndex).getD []).length

/-- The record of an undo block ends before its file reaches the limit. -/
def Store.Fits (s : Store) : Write → Prop
  | .block _ => True
  | .undoBlock b _ fileIndex =>
      s.1.posInFile .revertBlock fileIndex + b.bytes.length + 40
        ≤ growthLimit .revertBlock (s.undoFileSize b.bytes.length fileIndex)

/-- No two records overlap, and each can be read back. -/
def Store.RoundTrip (s : Store) : Prop :=
  s.2.Pairwise (Record.Disjoint Hash net) ∧
    ∀ r ∈ s.2, r.load Hash s.1 = .ok r.block.bytes

end Runs

/-! ## Sizes -/

namespace DBPrivate

theorem sizeOut_of_lt {size : ℕ} (h : size < 2 ^ 31) : sizeOut size = size := by
  rw [sizeOut, toInt32_of_lt (by omega) (by omega)]
  omega

/-- From `2 ^ 31` bytes on the size is taken for a huge one. -/
theorem sizeOut_of_ge {size : ℕ} (h : 2 ^ 31 ≤ size) (hlt : size < 2 ^ 32) :
    2 ^ 32 ≤ sizeOut size := by
  simp only [sizeOut, toInt32, Int.bmod_def]
  omega

theorem le_sizeOut {size : ℕ} (h : size < 2 ^ 32) : size ≤ sizeOut size := by
  by_cases hlt : size < 2 ^ 31
  · rw [sizeOut_of_lt hlt]
  · have := sizeOut_of_ge (by omega) h
    omega

theorem growthLimit_of_ge (type : BlockType) {size : ℕ} (h : 2 ^ 31 ≤ size) :
    growthLimit type size = size := by
  cases type <;> simp only [growthLimit, BlockType.chunkSize] <;> omega

theorem growthLimit_add_chunkSize (type : BlockType) {size : ℕ} (h : size < 2 ^ 31) :
    growthLimit type (size + type.chunkSize) = growthLimit type size := by
  cases type <;> simp only [growthLimit, BlockType.chunkSize] <;> omega

theorem growthLimit_bounds (type : BlockType) {size : ℕ} (h : size < 2 ^ 31) :
    2 ^ 31 ≤ growthLimit type size ∧ growthLimit type size < 2 ^ 31 + type.chunkSize := by
  cases type <;> simp only [growthLimit, BlockType.chunkSize] <;> omega

theorem chunkSize_le (type : BlockType) : 0 < type.chunkSize ∧ type.chunkSize ≤ 2 ^ 24 := by
  cases type <;> simp [BlockType.chunkSize]

/-- **Where growing stops**: behind the bytes that are needed, or at the limit. -/
theorem grownSize_spec (type : BlockType) (need : ℕ) (hneed : need < 2 ^ 32) :
    ∀ {size : ℕ}, size < 2 ^ 31 + type.chunkSize →
      let grown := grownSize type need size
      size ≤ grown ∧ grown < 2 ^ 31 + type.chunkSize ∧
        growthLimit type grown = growthLimit type size ∧
        (need < grown ∨ grown = growthLimit type size) ∧
        (grown = size ∨ grown ≤ need + type.chunkSize) := by
  intro size hsize
  have hchunk := chunkSize_le type
  fun_induction grownSize type need size with
  | case1 size hge ih =>
    rw [Nat.mod_eq_of_lt hneed] at hge
    -- a size that went negative would have ended the loop
    have hlt : size < 2 ^ 31 := by
      by_contra hnot
      have := sizeOut_of_ge (by omega) (by omega : size < 2 ^ 32)
      omega
    rw [sizeOut_of_lt hlt] at hge
    obtain ⟨hle, hbound, hlimit, hstop, hstep⟩ := ih (by omega)
    rw [growthLimit_add_chunkSize type hlt] at hlimit hstop
    exact ⟨by omega, hbound, hlimit, hstop, by omega⟩
  | case2 size hlt =>
    rw [Nat.mod_eq_of_lt hneed] at hlt
    refine ⟨le_rfl, hsize, rfl, ?_, .inl rfl⟩
    by_cases hsmall : size < 2 ^ 31
    · rw [sizeOut_of_lt hsmall] at hlt
      exact .inl (by omega)
    · exact .inr (growthLimit_of_ge type (by omega)).symm

/-! ## One write -/

/-- A record over zeros. -/
theorem writeAt_zeros (content frame : List UInt8) (tail : ℕ) :
    writeAt (content ++ List.replicate tail 0) content.length frame
      = content ++ frame ++ List.replicate (tail - frame.length) 0 := by
  rw [writeAt, List.take_left, ← List.drop_drop, List.drop_left, List.drop_replicate]

variable {Hash : List UInt8 → Uint256} {net : CBaseChainParams}

theorem length_frameOf (Hash : List UInt8 → Uint256) (net : CBaseChainParams) (block : List UInt8)
    (blockHash : Option Uint256) :
    (frameOf Hash net block blockHash).length = 8 + block.length + trailerSize blockHash := by
  cases blockHash <;> simp [frameOf, trailerSize, checksum] <;> omega

/-- The store after a record was put behind `content`. -/
def appended (db : DBPrivate) (type : BlockType) (nFile : ℕ) (content frame : List UInt8)
    (tail : ℕ) : DBPrivate :=
  { db with
    vinfoBlockFile := db.vinfoBlockFile.set nFile ((db.info nFile).added type frame.length)
    files := fun t n =>
      if t = type ∧ n = nFile then some (content ++ frame ++ List.replicate tail 0)
      else db.files t n }

section Append

variable {db : DBPrivate} {block content : List UInt8} {type : BlockType}
  {blockHash : Option Uint256} {nFile tail : ℕ} {newFile : Bool}

/-- `appendTo` puts the record behind what the file has, if it can grow enough. -/
theorem appendTo_spec (Hash : List UInt8 → Uint256) (net : CBaseChainParams)
    (hhash : trailerSize blockHash = if type = .forwardBlock then 0 else 32)
    (hfile : db.onDisk block type nFile newFile = some (content ++ List.replicate tail 0))
    (hused : db.posInFile type nFile = content.length)
    (hsize : content.length + tail < 2 ^ 31 + type.chunkSize)
    (hblock : block.length < maxBlockFileSize) :
    let frame := frameOf Hash net block blockHash
    let limit := growthLimit type (content.length + tail)
    (content.length + frame.length ≤ limit → ∃ tail',
      db.appendTo Hash net block type blockHash nFile newFile
        = .ok (db.appended type nFile content frame tail', ⟨nFile, content.length + 8⟩) ∧
      content.length + frame.length + tail' < 2 ^ 31 + type.chunkSize ∧
      growthLimit type (content.length + frame.length + tail') = limit ∧
      (content.length + frame.length < limit → 0 < tail') ∧
      (content.length + frame.length + tail' = content.length + tail ∨
        tail' ≤ type.chunkSize)) ∧
    (limit < content.length + frame.length →
      db.appendTo Hash net block type blockHash nFile newFile = .error .outOfBounds) := by
  intro frame limit
  have hframe : frame.length = 8 + block.length + trailerSize blockHash := length_frameOf _ _ _ _
  have hmax : maxBlockFileSize = 2 ^ 27 := rfl
  have hchunk := chunkSize_le type
  have htrailer : trailerSize blockHash ≤ 32 := by
    rw [hhash]
    split_ifs <;> omega
  have hneed : content.length + block.length + 8 + (if type = .forwardBlock then 0 else 32)
      = content.length + frame.length := by
    rw [← hhash, hframe]
    omega
  obtain ⟨hle, hbound, hlimit, hstop, hstep⟩ := grownSize_spec type
    (content.length + frame.length) (by omega) hsize
  have hlen : (content ++ List.replicate tail (0 : UInt8)).length = content.length + tail := by
    rw [List.length_append, List.length_replicate]
  generalize hg : grownSize type (content.length + frame.length) (content.length + tail) = grown
    at hle hbound hlimit hstop hstep
  -- the file after growing
  have hgrown : content ++ List.replicate tail 0 ++ List.replicate (grown - (content.length + tail))
      (0 : UInt8) = content ++ List.replicate (grown - content.length) 0 := by
    rw [List.append_assoc, List.replicate_append_replicate]
    congr 2
    omega
  have hglen : (content ++ List.replicate (grown - content.length) (0 : UInt8)).length = grown := by
    rw [List.length_append, List.length_replicate]
    omega
  have happend : db.appendTo Hash net block type blockHash nFile newFile
      = if content.length + frame.length ≤ grown then
          .ok (db.appended type nFile content frame (grown - content.length - frame.length),
            ⟨nFile, (content.length + 8) % 2 ^ 32⟩)
        else .error .outOfBounds := by
    rw [appendTo, hfile, hused]
    simp only [hneed, hlen, hg, hgrown, hglen]
    split_ifs with hfits
    · rw [writeAt_zeros, appended]
    · rfl
  rw [happend]
  constructor
  · intro hfits
    have hin : content.length + frame.length ≤ grown := by omega
    refine ⟨grown - content.length - frame.length, ?_, by omega, ?_, by omega, by omega⟩
    · rw [if_pos hin, Nat.mod_eq_of_lt (by omega)]
    · have hsum : content.length + frame.length + (grown - content.length - frame.length)
          = grown := by omega
      rw [hsum]
      exact hlimit
  · intro hover
    have hge : grown ≤ limit := by
      have hself : grown ≤ growthLimit type grown := Nat.le_add_right _ _
      omega
    rw [if_neg (by omega)]

end Append

theorem info_appended {db : DBPrivate} {type : BlockType} {nFile : ℕ} {content frame : List UInt8}
    {tail : ℕ} (h : nFile < db.vinfoBlockFile.length) (n : ℕ) :
    (db.appended type nFile content frame tail).info n
      = if n = nFile then (db.info nFile).added type frame.length else db.info n := by
  by_cases hn : n = nFile
  · subst hn
    simp [info, appended, h]
  · have hne : nFile ≠ n := fun heq => hn heq.symm
    simp [info, appended, hne, hn]

theorem posInFile_appended {db : DBPrivate} {type : BlockType} {nFile : ℕ}
    (content : List UInt8) {frame : List UInt8} (tail : ℕ) (h : nFile < db.vinfoBlockFile.length)
    (hlt : db.posInFile type nFile + frame.length < 2 ^ 32) (t : BlockType) (n : ℕ) :
    (db.appended type nFile content frame tail).posInFile t n
      = if t = type ∧ n = nFile then db.posInFile type nFile + frame.length
        else db.posInFile t n := by
  by_cases hn : n = nFile
  · subst hn
    cases t <;> cases type <;>
      simp_all [posInFile, info_appended, CBlockFileInfo.added, Nat.mod_eq_of_lt]
  · cases t <;> simp [posInFile, info_appended h, hn]

end DBPrivate

/-! ## What the files hold -/

namespace Store

/-- The records of one file, in order. -/
def recordsIn (s : Store) (type : BlockType) (nFile : ℕ) : List Record :=
  s.2.filter (Record.inFile type nFile)

variable (Hash : List UInt8 → Uint256) (net : CBaseChainParams)

/-- Their bytes. -/
def contents (s : Store) (type : BlockType) (nFile : ℕ) : List UInt8 :=
  (s.recordsIn type nFile).flatMap (Record.frame Hash net)

/-- How much of a file is in use, and how many zeros follow. -/
def Room (type : BlockType) (used tail : ℕ) : Prop :=
  match type with
  | .forwardBlock => 0 < tail ∧ used ≤ maxBlockFileSize ∧ used + tail ≤ maxBlockFileSize + 2 ^ 24
  | .revertBlock => used + tail < 2 ^ 31 + 2 ^ 20

/-- A file is the records that were written to it, one after the other, and zeros. -/
structure FileOk (s : Store) (type : BlockType) (nFile : ℕ) : Prop where
  laid : FrameFile.Laid (Record.frame Hash net) Record.start 0 (s.recordsIn type nFile)
  used : s.1.posInFile type nFile = (s.contents Hash net type nFile).length
  bytes : s.recordsIn type nFile ≠ [] → ∃ tail,
    s.1.files type nFile = some (s.contents Hash net type nFile ++ List.replicate tail 0) ∧
      Room type (s.contents Hash net type nFile).length tail

/-- A record as it was made by a legal call. -/
structure RecordOk (s : Store) (r : Record) : Prop where
  nPos : 8 ≤ r.pos.nPos
  nFile : r.pos.nFile ≤ s.1.nLastBlockFile
  size : 0 < r.block.bytes.length ∧ r.block.bytes.length < maxBlockFileSize - 8
  full : r.type = .forwardBlock → 80 < r.block.bytes.length
  blockHash : r.blockHash = none ↔ r.type = .forwardBlock

/-- **The invariant of the store.** -/
structure Inv (s : Store) : Prop where
  length : s.1.vinfoBlockFile.length = if s.2 = [] then 0 else s.1.nLastBlockFile + 1
  first : s.2 = [] → s.1.nLastBlockFile = 0
  last : s.2 ≠ [] → s.recordsIn .forwardBlock s.1.nLastBlockFile ≠ []
  records : ∀ r ∈ s.2, s.RecordOk r
  files : ∀ type nFile, s.FileOk Hash net type nFile
  nBlocks : ∀ nFile, (s.1.info nFile).nBlocks = (s.recordsIn .forwardBlock nFile).length

theorem inv_empty : Inv Hash net (DBPrivate.empty, []) where
  length := rfl
  first _ := rfl
  last h := absurd rfl h
  records _ hr := by cases hr
  files type nFile := by
    refine ⟨trivial, ?_, fun h => absurd rfl h⟩
    cases type <;> rfl
  nBlocks _ := rfl

variable {Hash net} {s : Store}

theorem recordsIn_concat (db : DBPrivate) (r : Record) (type : BlockType) (nFile : ℕ) :
    recordsIn (db, s.2 ++ [r]) type nFile
      = s.recordsIn type nFile ++ if r.type = type ∧ r.pos.nFile = nFile then [r] else [] := by
  rw [recordsIn, recordsIn, List.filter_append, List.filter_singleton, Record.inFile]
  congr 1
  by_cases h : r.type = type ∧ r.pos.nFile = nFile <;> simp [h]

/-- A file stays as it is when a record goes to the end of it or to another file. -/
theorem FileOk.appended {db : DBPrivate} {recs : List Record} {r : Record} {tail : ℕ}
    (h : ∀ type nFile, FileOk Hash net (db, recs) type nFile)
    (hlen : r.pos.nFile < db.vinfoBlockFile.length)
    (hpos : r.pos.nPos = (contents Hash net (db, recs) r.type r.pos.nFile).length + 8)
    (hroom : Room r.type ((contents Hash net (db, recs) r.type r.pos.nFile).length
      + (r.frame Hash net).length) tail) (type : BlockType) (nFile : ℕ) :
    FileOk Hash net (db.appended r.type r.pos.nFile (contents Hash net (db, recs) r.type r.pos.nFile)
      (r.frame Hash net) tail, recs ++ [r]) type nFile := by
  have hlt : db.posInFile r.type r.pos.nFile + (r.frame Hash net).length < 2 ^ 32 := by
    rw [(h r.type r.pos.nFile).used]
    revert hroom
    cases r.type <;> simp only [Room, maxBlockFileSize] <;> omega
  have hrecs := recordsIn_concat (s := (db, recs)) (db.appended r.type r.pos.nFile
    (contents Hash net (db, recs) r.type r.pos.nFile) (r.frame Hash net) tail) r type nFile
  have hposIn := DBPrivate.posInFile_appended (contents Hash net (db, recs) r.type r.pos.nFile)
    tail hlen hlt type nFile
  by_cases heq : r.type = type ∧ r.pos.nFile = nFile
  · obtain ⟨rfl, rfl⟩ := heq
    rw [if_pos ⟨rfl, rfl⟩] at hrecs hposIn
    have hcontents : contents Hash net (db.appended r.type r.pos.nFile
        (contents Hash net (db, recs) r.type r.pos.nFile) (r.frame Hash net) tail, recs ++ [r])
        r.type r.pos.nFile
        = contents Hash net (db, recs) r.type r.pos.nFile ++ r.frame Hash net := by
      rw [contents, hrecs, List.flatMap_append, List.flatMap_singleton]
      rfl
    refine ⟨?_, ?_, fun _ => ⟨tail, ?_, ?_⟩⟩
    · rw [hrecs, FrameFile.laid_concat]
      refine ⟨(h r.type r.pos.nFile).laid, ?_⟩
      rw [Record.start, hpos, contents]
      omega
    · rw [hposIn, hcontents, List.length_append, (h r.type r.pos.nFile).used]
    · rw [hcontents]
      simp [DBPrivate.appended]
    · rw [hcontents, List.length_append]
      exact hroom
  · have hne : ¬ (type = r.type ∧ nFile = r.pos.nFile) := fun hc => heq ⟨hc.1.symm, hc.2.symm⟩
    rw [if_neg heq, List.append_nil] at hrecs
    rw [if_neg hne] at hposIn
    have hcontents : contents Hash net (db.appended r.type r.pos.nFile
        (contents Hash net (db, recs) r.type r.pos.nFile) (r.frame Hash net) tail, recs ++ [r])
        type nFile = contents Hash net (db, recs) type nFile := by
      rw [contents, hrecs, contents]
    refine ⟨?_, ?_, fun hnil => ?_⟩
    · rw [hrecs]
      exact (h type nFile).laid
    · rw [hposIn, hcontents]
      exact (h type nFile).used
    · rw [hrecs] at hnil
      obtain ⟨tail', hfile, hroom'⟩ := (h type nFile).bytes hnil
      refine ⟨tail', ?_, ?_⟩
      · rw [hcontents, ← hfile]
        simp [DBPrivate.appended, hne]
      · rw [hcontents]
        exact hroom'

theorem length_frame (r : Record) :
    (r.frame Hash net).length = 8 + r.block.bytes.length + DBPrivate.trailerSize r.blockHash :=
  DBPrivate.length_frameOf _ _ _ _

theorem length_recordsIn_le (Hash : List UInt8 → Uint256) (net : CBaseChainParams) (s : Store)
    (type : BlockType) (nFile : ℕ) :
    (s.recordsIn type nFile).length ≤ (s.contents Hash net type nFile).length :=
  Serialization.length_le_flatMap _ fun r => by
    rw [length_frame]
    omega

/-- A call that found its file leaves the invariant. -/
theorem Inv.appended (hs : s.Inv Hash net) {db : DBPrivate} {r : Record} {tail : ℕ}
    (hinfo : ∀ n, db.info n = s.1.info n) (hfiles : db.files = s.1.files)
    (hlen : db.vinfoBlockFile.length = db.nLastBlockFile + 1)
    (hlast : r.type = .forwardBlock ∧ r.pos.nFile = db.nLastBlockFile ∧
        s.1.nLastBlockFile ≤ db.nLastBlockFile ∨
      s.2 ≠ [] ∧ db.nLastBlockFile = s.1.nLastBlockFile)
    (hr : RecordOk (db, s.2) r)
    (hpos : r.pos.nPos = (s.contents Hash net r.type r.pos.nFile).length + 8)
    (hroom : Room r.type ((s.contents Hash net r.type r.pos.nFile).length
      + (r.frame Hash net).length) tail) :
    Inv Hash net (db.appended r.type r.pos.nFile (s.contents Hash net r.type r.pos.nFile)
      (r.frame Hash net) tail, s.2 ++ [r]) := by
  have hposIn : ∀ type n, db.posInFile type n = s.1.posInFile type n := by
    intro type n
    cases type <;> simp [DBPrivate.posInFile, hinfo]
  have hok : ∀ type n, FileOk Hash net (db, s.2) type n := by
    intro type n
    obtain ⟨hlaid, hused, hbytes⟩ := hs.files type n
    refine ⟨hlaid, (hposIn type n).trans hused, fun hne => ?_⟩
    obtain ⟨tail, hfile, hroom⟩ := hbytes hne
    exact ⟨tail, hfiles ▸ hfile, hroom⟩
  have hlt : r.pos.nFile < db.vinfoBlockFile.length := by
    have := hr.nFile
    show r.pos.nFile < _
    rw [hlen]
    exact Nat.lt_succ_of_le this
  refine ⟨?_, ?_, ?_, ?_, FileOk.appended hok hlt hpos hroom, ?_⟩
  · rw [if_neg (by simp)]
    simp [DBPrivate.appended, hlen]
  · intro hnil
    simp at hnil
  · intro _
    rw [recordsIn_concat]
    rcases hlast with ⟨htype, hfile, -⟩ | ⟨hne, hsame⟩
    · have hin : r.type = .forwardBlock ∧ r.pos.nFile = db.nLastBlockFile := ⟨htype, hfile⟩
      show _ ++ (if r.type = .forwardBlock ∧ r.pos.nFile = db.nLastBlockFile then [r] else []) ≠ []
      rw [if_pos hin]
      simp
    · have hold := hs.last hne
      show recordsIn s .forwardBlock db.nLastBlockFile ++ _ ≠ []
      rw [hsame]
      simp [hold]
  · intro r' hr'
    have hmono : s.1.nLastBlockFile ≤ db.nLastBlockFile := by
      rcases hlast with ⟨-, -, hle⟩ | ⟨-, hsame⟩ <;> omega
    rcases List.mem_append.mp hr' with hold | hnew
    · obtain ⟨h₁, h₂, h₃, h₄, h₅⟩ := hs.records r' hold
      exact ⟨h₁, h₂.trans hmono, h₃, h₄, h₅⟩
    · obtain rfl := List.mem_singleton.mp hnew
      obtain ⟨h₁, h₂, h₃, h₄, h₅⟩ := hr
      exact ⟨h₁, h₂, h₃, h₄, h₅⟩
  · intro n
    rw [recordsIn_concat, DBPrivate.info_appended hlt, List.length_append]
    have hn := hs.nBlocks n
    by_cases heq : n = r.pos.nFile
    · subst heq
      rw [if_pos rfl, hinfo]
      have hle := length_recordsIn_le Hash net s .forwardBlock r.pos.nFile
      cases htype : r.type with
      | forwardBlock =>
        rw [htype] at hroom
        have hbound : (s.contents Hash net .forwardBlock r.pos.nFile).length ≤ 2 ^ 27 := by
          have := hroom.2.1
          simp only [maxBlockFileSize] at this
          omega
        simp only [CBlockFileInfo.added, hn, and_self, if_true, List.length_singleton]
        omega
      | revertBlock =>
        simp only [CBlockFileInfo.added, hn, reduceCtorEq, false_and, if_false, List.length_nil,
          Nat.add_zero]
    · rw [if_neg heq, hinfo, hn, if_neg (fun h => heq h.2.symm)]
      rfl

/-! ## The two kinds of writes -/

theorem resize_getD (v : List CBlockFileInfo) {n : ℕ} (hn : v.length ≤ n) (m : ℕ) :
    (DBPrivate.resize v n).getD m CBlockFileInfo.null = v.getD m CBlockFileInfo.null := by
  rw [DBPrivate.resize, List.take_of_length_le hn]
  simp only [List.getD_eq_getElem?_getD, List.getElem?_append, List.getElem?_replicate]
  split_ifs with hm hk
  · rfl
  · rw [List.getElem?_eq_none (by omega)]
    rfl
  · rw [List.getElem?_eq_none (by omega)]

theorem length_resize (v : List CBlockFileInfo) {n : ℕ} (hn : v.length ≤ n) :
    (DBPrivate.resize v n).length = n := by
  rw [DBPrivate.resize, List.length_append, List.length_replicate, List.take_of_length_le hn]
  omega

/-- Nothing was written behind the last file. -/
theorem Inv.recordsIn_of_lt (hs : s.Inv Hash net) {nFile : ℕ} (h : s.1.nLastBlockFile < nFile)
    (type : BlockType) : s.recordsIn type nFile = [] := by
  rw [recordsIn, List.filter_eq_nil_iff]
  intro r hr hin
  have hle := (hs.records r hr).nFile
  simp only [Record.inFile, decide_eq_true_eq] at hin
  omega

/-- Where a block goes: behind the blocks of the last file, or into a new file. -/
theorem Inv.chooseFile_block (hs : s.Inv Hash net) {block : List UInt8}
    (hblock : block.length < maxBlockFileSize - 8) (nFile : ℕ) :
    ∃ db n newFile tail, s.1.chooseFile block.length .forwardBlock nFile = (db, n, newFile) ∧
      (∀ m, db.info m = s.1.info m) ∧ db.files = s.1.files ∧
      db.vinfoBlockFile.length = db.nLastBlockFile + 1 ∧ n = db.nLastBlockFile ∧
      s.1.nLastBlockFile ≤ db.nLastBlockFile ∧ (s.2 = [] → n = 0) ∧
      (s.contents Hash net .forwardBlock n).length + block.length + 8 ≤ maxBlockFileSize ∧
      db.onDisk block .forwardBlock n newFile
        = some (s.contents Hash net .forwardBlock n ++ List.replicate tail 0) ∧
      (s.contents Hash net .forwardBlock n).length + tail ≤ maxBlockFileSize + 2 ^ 24 := by
  have hmax : maxBlockFileSize = 2 ^ 27 := rfl
  have hchunk : BlockType.forwardBlock.chunkSize = 2 ^ 24 := rfl
  have hfresh : ([] : List UInt8).length + max (block.length + 8) BlockType.forwardBlock.chunkSize
      ≤ maxBlockFileSize + 2 ^ 24 := by
    rw [List.length_nil]
    omega
  have hnew : ∀ {n}, s.recordsIn .forwardBlock n = [] →
      (s.contents Hash net .forwardBlock n) = [] := by
    intro n hnil
    rw [contents, hnil, List.flatMap_nil]
  by_cases hnil : s.2 = []
  · -- the first file
    have hlen : s.1.vinfoBlockFile.length = 0 := by rw [hs.length, if_pos hnil]
    have hlast := hs.first hnil
    have hcontents : s.contents Hash net .forwardBlock 0 = [] := by
      apply hnew
      rw [recordsIn, hnil]
      rfl
    refine ⟨{ s.1 with vinfoBlockFile := DBPrivate.resize s.1.vinfoBlockFile 1 }, 0, true,
      max (block.length + 8) BlockType.forwardBlock.chunkSize, ?_, fun m => ?_, rfl, ?_, ?_, ?_,
      fun _ => rfl, ?_, ?_, ?_⟩
    · simp [DBPrivate.chooseFile, hlast, hlen]
    · exact resize_getD _ (by omega) m
    · rw [hlast]
      exact length_resize _ (by omega)
    · exact hlast.symm
    · exact le_rfl
    · rw [hcontents, List.length_nil]
      omega
    · rw [hcontents]
      rfl
    · rw [hcontents]
      exact hfresh
  · have hlen : s.1.vinfoBlockFile.length = s.1.nLastBlockFile + 1 := by rw [hs.length, if_neg hnil]
    have hused := (hs.files .forwardBlock s.1.nLastBlockFile).used
    obtain ⟨tail, hfile, hroom⟩ := (hs.files .forwardBlock s.1.nLastBlockFile).bytes (hs.last hnil)
    obtain ⟨htail, hroom, hsize⟩ := hroom
    have hsum : ((s.1.info s.1.nLastBlockFile).nSize + block.length + 8) % 2 ^ 32
        = (s.contents Hash net .forwardBlock s.1.nLastBlockFile).length + block.length + 8 := by
      rw [← hused]
      show ((s.1.info s.1.nLastBlockFile).nSize + block.length + 8) % 2 ^ 32
        = (s.1.info s.1.nLastBlockFile).nSize + block.length + 8
      apply Nat.mod_eq_of_lt
      have hval : (s.1.info s.1.nLastBlockFile).nSize ≤ maxBlockFileSize := by
        have hsame : (s.1.info s.1.nLastBlockFile).nSize
          = (s.contents Hash net .forwardBlock s.1.nLastBlockFile).length := hused
        omega
      omega
    by_cases hfull : (s.contents Hash net .forwardBlock s.1.nLastBlockFile).length + block.length + 8
        > maxBlockFileSize
    · -- the last file is full
      have hcontents : s.contents Hash net .forwardBlock (s.1.nLastBlockFile + 1) = [] :=
        hnew (hs.recordsIn_of_lt (by omega) _)
      refine ⟨{ s.1 with
          vinfoBlockFile := DBPrivate.resize s.1.vinfoBlockFile (s.1.nLastBlockFile + 1 + 1)
          nLastBlockFile := s.1.nLastBlockFile + 1 }, s.1.nLastBlockFile + 1, true,
        max (block.length + 8) BlockType.forwardBlock.chunkSize, ?_, fun m => ?_, rfl, ?_, rfl, ?_,
        fun h => absurd h hnil, ?_, ?_, ?_⟩
      · simp only [DBPrivate.chooseFile, hsum]
        rw [if_neg (by omega), if_pos ⟨trivial, hfull⟩]
      · exact resize_getD _ (by omega) m
      · exact length_resize _ (by omega)
      · show s.1.nLastBlockFile ≤ s.1.nLastBlockFile + 1
        omega
      · rw [hcontents, List.length_nil]
        omega
      · rw [hcontents]
        rfl
      · rw [hcontents]
        exact hfresh
    · refine ⟨s.1, s.1.nLastBlockFile, false, tail, ?_, fun _ => rfl, rfl, hlen, rfl, le_rfl,
        fun h => absurd h hnil, by omega, ?_, hsize⟩
      · simp only [DBPrivate.chooseFile, hsum]
        rw [if_neg (by omega), if_neg (by omega)]
        simp
      · rw [DBPrivate.onDisk, if_neg (by simp)]
        exact hfile

/-- **A block is written.** -/
theorem Inv.step_block (hs : s.Inv Hash net) {b : FastBlock} (h : s.Legal (.block b)) :
    ∃ s', s.step Hash net (.block b) = some s' ∧ s'.Inv Hash net ∧
      (s.2 = [] → ∃ r ∈ s'.2, r.inFile .forwardBlock 0) ∧
      ∀ nFile, s'.recordsIn .revertBlock nFile = s.recordsIn .revertBlock nFile := by
  obtain ⟨hfull, hblock⟩ := h
  have hmax : maxBlockFileSize = 2 ^ 27 := rfl
  have hsize : 80 < b.data.bytes.length := by simpa [FastBlock.isFullBlock] using hfull
  obtain ⟨db, n, newFile, tail, hchoose, hinfo, hfiles, hlen, hn, hmono, hzero, hroom, hdisk,
    htail⟩ := hs.chooseFile_block hblock 0
  subst hn
  have hused : db.posInFile .forwardBlock db.nLastBlockFile
      = (s.contents Hash net .forwardBlock db.nLastBlockFile).length := by
    rw [← (hs.files .forwardBlock db.nLastBlockFile).used]
    simp [DBPrivate.posInFile, hinfo]
  have hchunk : BlockType.forwardBlock.chunkSize = 2 ^ 24 := rfl
  have hframe := DBPrivate.length_frameOf Hash net b.data.bytes none
  have hlimit := (DBPrivate.growthLimit_bounds .forwardBlock
    (by omega : (s.contents Hash net .forwardBlock db.nLastBlockFile).length + tail < 2 ^ 31)).1
  have htrailer : DBPrivate.trailerSize none = 0 := rfl
  have hhash : DBPrivate.trailerSize none
      = if BlockType.forwardBlock = .forwardBlock then 0 else 32 := rfl
  obtain ⟨tail', happend, hbound, -, hpos, hgrow⟩ := (DBPrivate.appendTo_spec Hash net hhash hdisk
    hused (by omega) (by omega)).1 (by omega)
  have hr : RecordOk (db, s.2) ⟨.forwardBlock, b.data, none, ⟨db.nLastBlockFile,
      (s.contents Hash net .forwardBlock db.nLastBlockFile).length + 8⟩⟩ :=
    ⟨Nat.le_add_left _ _, le_rfl, ⟨Nat.lt_trans (by decide) hsize, hblock⟩, fun _ => hsize,
      by simp⟩
  have hroom' : Room .forwardBlock ((s.contents Hash net .forwardBlock db.nLastBlockFile).length
      + (DBPrivate.frameOf Hash net b.data.bytes none).length) tail' :=
    ⟨hpos (by omega), by omega, by omega⟩
  have hinv := hs.appended hinfo hfiles hlen (.inl ⟨rfl, rfl, hmono⟩) hr rfl hroom'
  refine ⟨_, ?_, hinv, fun hnil => ⟨_, List.mem_append_right _ List.mem_cons_self, by
    simp [Record.inFile, hzero hnil]⟩, fun nFile => by simp [recordsIn, Record.inFile]⟩
  have hwrite : s.1.writeBlock Hash net b.data 0 .forwardBlock none
      = db.appendTo Hash net b.data.bytes .forwardBlock none db.nLastBlockFile newFile := by
    rw [DBPrivate.writeBlock, if_neg (by omega), hchoose]
    simp only [hlen]
    rw [if_neg (by omega), if_neg (by simp)]
  rw [Store.step, Write.apply, if_neg (by simpa using hfull), hwrite, happend]
  rfl

/-- The file for an undo block of a legal call. -/
theorem Inv.onDisk_undo (hs : s.Inv Hash net) (block : List UInt8) (nFile : ℕ)
    (hblock : block.length < maxBlockFileSize - 8) :
    ∃ tail, s.1.onDisk block .revertBlock nFile false
        = some (s.contents Hash net .revertBlock nFile ++ List.replicate tail 0) ∧
      (s.contents Hash net .revertBlock nFile).length + tail
        = s.undoFileSize block.length nFile ∧
      (s.contents Hash net .revertBlock nFile).length + tail < 2 ^ 31 + 2 ^ 20 := by
  have hused := (hs.files .revertBlock nFile).used
  have hmax : maxBlockFileSize = 2 ^ 27 := rfl
  have hchunk : BlockType.revertBlock.chunkSize = 2 ^ 20 := rfl
  by_cases hzero : s.1.posInFile .revertBlock nFile = 0
  · have hcontents : s.contents Hash net .revertBlock nFile = [] := by
      rw [← List.length_eq_zero_iff]
      omega
    refine ⟨max (block.length + 8) BlockType.revertBlock.chunkSize, ?_, ?_, ?_⟩
    · rw [DBPrivate.onDisk, if_pos (.inr ⟨rfl, hzero⟩), hcontents]
      rfl
    · rw [undoFileSize, if_pos hzero, hcontents, List.length_nil, Nat.zero_add]
    · rw [hcontents, List.length_nil]
      omega
  · have hne : s.recordsIn .revertBlock nFile ≠ [] := by
      intro hnil
      rw [contents, hnil] at hused
      exact hzero hused
    obtain ⟨tail, hfile, hroom⟩ := (hs.files .revertBlock nFile).bytes hne
    refine ⟨tail, ?_, ?_, hroom⟩
    · rw [DBPrivate.onDisk, if_neg (by simp [hzero]), hfile]
    · rw [undoFileSize, if_neg hzero, hfile, Option.getD_some, List.length_append,
        List.length_replicate]

/-- **An undo block is written exactly when it fits.** -/
theorem Inv.step_undoBlock (hs : s.Inv Hash net) {b : ConstBuffer} {blockHash : Uint256}
    {nFile : ℕ} (h : s.Legal (.undoBlock b blockHash nFile)) :
    (s.Fits (.undoBlock b blockHash nFile) →
      ∃ s', s.step Hash net (.undoBlock b blockHash nFile) = some s' ∧ s'.Inv Hash net ∧
        s'.1.posInFile .revertBlock nFile
          = s.1.posInFile .revertBlock nFile + b.bytes.length + 40) ∧
    (¬ s.Fits (.undoBlock b blockHash nFile) →
      s.step Hash net (.undoBlock b blockHash nFile) = none) := by
  obtain ⟨hpos, hblock, r₀, hr₀, hfile₀⟩ := h
  have hmax : maxBlockFileSize = 2 ^ 27 := rfl
  have hchunk : BlockType.revertBlock.chunkSize = 2 ^ 20 := rfl
  have hnil : s.2 ≠ [] := List.ne_nil_of_mem hr₀
  have hlen : s.1.vinfoBlockFile.length = s.1.nLastBlockFile + 1 := by rw [hs.length, if_neg hnil]
  have hle : nFile ≤ s.1.nLastBlockFile := by
    have hr := (hs.records r₀ hr₀).nFile
    simp only [Record.inFile, decide_eq_true_eq] at hfile₀
    omega
  obtain ⟨tail, hdisk, hsize, hbound⟩ := hs.onDisk_undo b.bytes nFile hblock
  have hused := (hs.files .revertBlock nFile).used
  have hframe := DBPrivate.length_frameOf Hash net b.bytes (some blockHash)
  have htrailer : DBPrivate.trailerSize (some blockHash) = 32 := by simp [DBPrivate.trailerSize]
  have hhash : DBPrivate.trailerSize (some blockHash)
      = if BlockType.revertBlock = .forwardBlock then 0 else 32 := by simp [htrailer]
  have hspec := DBPrivate.appendTo_spec Hash net hhash hdisk hused (by omega) (by omega)
  rw [hsize] at hspec
  have hstep : s.step Hash net (.undoBlock b blockHash nFile)
      = match s.1.appendTo Hash net b.bytes .revertBlock (some blockHash) nFile false with
        | .ok (db, pos) => some (db, s.2 ++ [⟨.revertBlock, b, some blockHash, pos⟩])
        | .error _ => none := by
    have hchoose : s.1.chooseFile b.bytes.length .revertBlock nFile = (s.1, nFile, false) := by
      simp [DBPrivate.chooseFile, hlen, hle]
    have hwrite : s.1.writeBlock Hash net b nFile .revertBlock (some blockHash)
        = s.1.appendTo Hash net b.bytes .revertBlock (some blockHash) nFile false := by
      rw [DBPrivate.writeBlock, if_neg (by omega), hchoose]
      simp only [hlen]
      rw [if_neg (by omega), if_neg (by simp)]
    rw [Store.step, Write.apply, if_neg (by omega), hwrite]
    cases s.1.appendTo Hash net b.bytes .revertBlock (some blockHash) nFile false <;> rfl
  rw [hstep]
  simp only [Fits]
  constructor
  · intro hfits
    obtain ⟨tail', happend, hbound', -, -, -⟩ := hspec.1 (by omega)
    rw [happend]
    have hr : RecordOk (s.1, s.2) ⟨.revertBlock, b, some blockHash, ⟨nFile,
        (s.contents Hash net .revertBlock nFile).length + 8⟩⟩ :=
      ⟨Nat.le_add_left _ _, hle, ⟨hpos, hblock⟩, by simp, by simp⟩
    have hroom : Room .revertBlock ((s.contents Hash net .revertBlock nFile).length
        + (DBPrivate.frameOf Hash net b.bytes (some blockHash)).length) tail' := by
      show _ + _ + tail' < 2 ^ 31 + 2 ^ 20
      omega
    have hinv := hs.appended (fun _ => rfl) rfl hlen (.inr ⟨hnil, rfl⟩) hr rfl hroom
    refine ⟨_, rfl, hinv, ?_⟩
    have hlt : s.1.posInFile .revertBlock nFile
        + (DBPrivate.frameOf Hash net b.bytes (some blockHash)).length < 2 ^ 32 := by omega
    have hposIn := DBPrivate.posInFile_appended (s.contents Hash net .revertBlock nFile) tail'
      (by omega) hlt .revertBlock nFile
    rw [if_pos ⟨rfl, rfl⟩] at hposIn
    exact hposIn.trans (by omega)
  · intro hover
    rw [hspec.2 (by omega)]

/-! ## Reading back -/

/-- A record is found at its position. -/
theorem loadBlock_spec {db : DBPrivate} {pos : CDiskBlockPos} {type : BlockType}
    {blockHash : Option Uint256} {file block rest : List UInt8}
    (hfile : db.files type pos.nFile = some file) (hpos : 8 ≤ pos.nPos)
    (hdrop : file.drop (pos.nPos - 8) = DBPrivate.frameOf Hash net block blockHash ++ rest)
    (hblock : 0 < block.length) (hsize : file.length < 2 ^ 32)
    (hhash : blockHash = none ↔ type = .forwardBlock) :
    db.loadBlock Hash pos type blockHash = .ok block := by
  have hlen : pos.nPos + block.length + DBPrivate.trailerSize blockHash + rest.length
      = file.length := by
    have hd := congrArg List.length hdrop
    rw [List.length_drop, List.length_append, DBPrivate.length_frameOf] at hd
    omega
  have hout := DBPrivate.le_sizeOut hsize
  simp only [DBPrivate.frameOf, List.append_assoc] at hdrop
  -- the four parts of the record
  have h₁ := FastBlock.drop_of_drop hdrop
  rw [CBaseChainParams.length_messageStart] at h₁
  have hread : FastBlock.readAt file (pos.nPos - 4) 4 = block.length := by
    have hread := FastBlock.readAt_of_drop h₁
    rw [length_leBytes, leNat_leBytes 4 _ (by omega)] at hread
    rw [← hread]
    congr 1
    omega
  have h₂ := FastBlock.drop_of_drop h₁
  rw [length_leBytes, show pos.nPos - 8 + 4 + 4 = pos.nPos by omega] at h₂
  have hslice : slice file pos.nPos (pos.nPos + block.length) = block := by
    rw [slice, List.drop_take, Nat.add_sub_cancel_left, h₂, List.take_left]
  have hverified : DBPrivate.verified Hash file pos.nPos block.length blockHash = .ok block := by
    rw [DBPrivate.verified, if_neg (by omega)]
    simp only [hslice]
    cases blockHash with
    | none => rfl
    | some h =>
      have h₃ := FastBlock.drop_of_drop h₂
      have hcheck : slice file (pos.nPos + block.length) (pos.nPos + block.length + 32)
          = DBPrivate.checksum Hash h block := by
        have hlen32 : (DBPrivate.checksum Hash h block).length = 32 := length_leBytes 32 _
        rw [slice, List.drop_take, Nat.add_sub_cancel_left, h₃, ← hlen32, List.take_left]
      simp [hcheck]
  have htype : ¬ (blockHash ≠ none ∧ type ≠ .revertBlock) := by
    rintro ⟨hne, hrev⟩
    apply hne
    rw [hhash]
    cases type with
    | forwardBlock => rfl
    | revertBlock => exact absurd rfl hrev
  rw [DBPrivate.loadBlock, if_neg (by omega), hfile]
  simp only [hread]
  rw [if_neg (by omega), if_neg (by omega), Nat.mod_eq_of_lt (by omega), if_neg (by omega),
    if_neg htype, hverified]

theorem mem_recordsIn {r : Record} (hr : r ∈ s.2) : r ∈ s.recordsIn r.type r.pos.nFile := by
  rw [recordsIn, List.mem_filter]
  exact ⟨hr, by simp [Record.inFile]⟩

/-- Every record is read back. -/
theorem Inv.load (hs : s.Inv Hash net) {r : Record} (hr : r ∈ s.2) :
    r.load Hash s.1 = .ok r.block.bytes := by
  have hmem := mem_recordsIn hr
  obtain ⟨hlaid, -, hbytes⟩ := hs.files r.type r.pos.nFile
  obtain ⟨tail, hfile, hroom⟩ := hbytes (List.ne_nil_of_mem hmem)
  obtain ⟨hpos, -, hsize, -, hhash⟩ := hs.records r hr
  have hcontents : (s.contents Hash net r.type r.pos.nFile ++ List.replicate tail 0).drop 0
      = (s.recordsIn r.type r.pos.nFile).flatMap (Record.frame Hash net)
        ++ List.replicate tail 0 := rfl
  obtain ⟨rest, hdrop⟩ := hlaid.drop_start hcontents r hmem
  refine loadBlock_spec hfile hpos hdrop hsize.1 ?_ hhash
  rw [List.length_append, List.length_replicate]
  revert hroom
  cases r.type <;> simp only [Room, maxBlockFileSize] <;> omega

/-- No two records overlap. -/
theorem Inv.disjoint (hs : s.Inv Hash net) : s.2.Pairwise (Record.Disjoint Hash net) := by
  rw [List.pairwise_iff_getElem]
  intro i j hi hj hij htype hfile
  left
  have hlaid := (hs.files s.2[i].type s.2[i].pos.nFile).laid.pairwise
  rw [recordsIn, List.pairwise_filter] at hlaid
  have hij' := List.pairwise_iff_getElem.mp hlaid i j hi hj hij
  exact hij' (by simp [Record.inFile]) (by simp [Record.inFile, htype, hfile])

theorem Inv.roundTrip (hs : s.Inv Hash net) : s.RoundTrip Hash net :=
  ⟨hs.disjoint, fun _ hr => hs.load hr⟩

/-- A legal call that returns leaves the invariant. -/
theorem Inv.of_step (hs : s.Inv Hash net) {w : Write} (hlegal : s.Legal w) {s' : Store}
    (hs' : s.step Hash net w = some s') : s'.Inv Hash net := by
  cases w with
  | block b =>
    obtain ⟨t, ht, hinv, -⟩ := hs.step_block hlegal
    obtain rfl := Option.some.inj (ht.symm.trans hs')
    exact hinv
  | undoBlock b blockHash nFile =>
    obtain ⟨hgood, hbad⟩ := hs.step_undoBlock hlegal
    by_cases hfits : s.Fits (.undoBlock b blockHash nFile)
    · obtain ⟨t, ht, hinv, -⟩ := hgood hfits
      obtain rfl := Option.some.inj (ht.symm.trans hs')
      exact hinv
    · rw [hbad hfits] at hs'
      cases hs'

/-- The invariant at the end of a run of legal calls. -/
theorem inv_of_run : ∀ {writes : List Write} {s t : Store}, s.Inv Hash net →
    Runs.Each (Store.step Hash net) Store.Legal s writes →
    writes.foldlM (Store.step Hash net) s = some t → t.Inv Hash net := by
  intro writes
  induction writes with
  | nil =>
    intro s t hs _ hrun
    obtain rfl := Option.some.inj hrun
    exact hs
  | cons w writes ih =>
    intro s t hs hlegal hrun
    rw [List.foldlM_cons] at hrun
    obtain ⟨s', hs', hrun⟩ := Option.bind_eq_some_iff.mp hrun
    exact ih (hs.of_step hlegal.1 hs') (hlegal.2 s' hs') hrun

/-- **Runs of writes.** -/
theorem always_roundTrip_iff (hs : s.Inv Hash net) (writes : List Write)
    (hlegal : Runs.Each (Store.step Hash net) Store.Legal s writes) :
    Runs.Always (Store.step Hash net) (Store.RoundTrip Hash net) s writes ↔
      Runs.Each (Store.step Hash net) Store.Fits s writes := by
  refine Runs.always_iff_each (I := Store.Inv Hash net) (fun _ => Inv.roundTrip) ?_ ?_ writes s hs
    hlegal
  · intro s w hs hlegal hfits
    cases w with
    | block b =>
      obtain ⟨s', hs', hinv, -⟩ := hs.step_block hlegal
      exact ⟨s', hs', hinv⟩
    | undoBlock b blockHash nFile =>
      obtain ⟨s', hs', hinv, -⟩ := (hs.step_undoBlock hlegal).1 hfits
      exact ⟨s', hs', hinv⟩
  · intro s w s' hs hlegal hnot hs'
    cases w with
    | block b => exact absurd trivial hnot
    | undoBlock b blockHash nFile =>
      rw [(hs.step_undoBlock hlegal).2 hnot] at hs'
      cases hs'

end Store

section Main

variable (Hash : List UInt8 → Uint256) (net : CBaseChainParams)

/-- **Block file store round trip.**  In a run of legal writes from an empty store, no two
records overlap and each is read back at all times, exactly when every undo block ends
before its file would have to grow beyond its first size of at least 2 GiB. -/
theorem roundTrip_iff_fits (writes : List Write)
    (hlegal : Runs.Each (Store.step Hash net) Store.Legal (DBPrivate.empty, []) writes) :
    Runs.Always (Store.step Hash net) (Store.RoundTrip Hash net) (DBPrivate.empty, []) writes ↔
      Runs.Each (Store.step Hash net) Store.Fits (DBPrivate.empty, []) writes :=
  Store.always_roundTrip_iff (Store.inv_empty Hash net) writes hlegal

end Main

/-! ### A file of undo blocks that grows too large -/

namespace Store

variable {Hash : List UInt8 → Uint256} {net : CBaseChainParams} {s s' : Store}

/-- A file with blocks keeps them. -/
theorem exists_inFile_step {w : Write} (h : s.step Hash net w = some s')
    (hrec : ∃ r ∈ s.2, r.inFile .forwardBlock 0) : ∃ r ∈ s'.2, r.inFile .forwardBlock 0 := by
  rw [Store.step] at h
  split at h
  · obtain rfl := Option.some.inj h
    obtain ⟨r, hr, hfile⟩ := hrec
    exact ⟨r, List.mem_append_left _ hr, hfile⟩
  · cases h

theorem legal_replicate {b : ConstBuffer} {blockHash : Uint256} (hpos : 0 < b.bytes.length)
    (hlt : b.bytes.length < maxBlockFileSize - 8) (n : ℕ) :
    ∀ {s : Store}, (∃ r ∈ s.2, r.inFile .forwardBlock 0) →
      Runs.Each (Store.step Hash net) Store.Legal s
        (List.replicate n (.undoBlock b blockHash 0)) := by
  induction n with
  | zero =>
    intro s _
    trivial
  | succ n ih =>
    intro s hrec
    exact ⟨⟨hpos, hlt, hrec⟩, fun s' hs' => ih (exists_inFile_step hs' hrec)⟩

theorem Inv.posInFile_lt (hs : s.Inv Hash net) (nFile : ℕ) :
    s.1.posInFile .revertBlock nFile < 2 ^ 31 + 2 ^ 20 := by
  have hused := (hs.files .revertBlock nFile).used
  by_cases hnil : s.recordsIn .revertBlock nFile = []
  · rw [hused, contents, hnil]
    exact Nat.lt_of_lt_of_le (Nat.two_pow_pos 20) (Nat.le_add_left _ _)
  · obtain ⟨tail, -, hroom⟩ := (hs.files .revertBlock nFile).bytes hnil
    have hroom' : (s.contents Hash net .revertBlock nFile).length + tail < 2 ^ 31 + 2 ^ 20 := hroom
    omega

/-- The undo blocks of a file do not take more than its limit. -/
theorem Inv.fits_replicate {b : ConstBuffer} {blockHash : Uint256} (hpos : 0 < b.bytes.length)
    (hlt : b.bytes.length < maxBlockFileSize - 8) (n : ℕ) :
    ∀ {s : Store}, s.Inv Hash net → (∃ r ∈ s.2, r.inFile .forwardBlock 0) →
      Runs.Each (Store.step Hash net) Store.Fits s (List.replicate n (.undoBlock b blockHash 0)) →
      s.1.posInFile .revertBlock 0 + n * (b.bytes.length + 40) < 2 ^ 31 + 2 ^ 20 := by
  induction n with
  | zero =>
    intro s hs _ _
    have := hs.posInFile_lt 0
    omega
  | succ n ih =>
    rintro s hs hrec ⟨hfits, hrest⟩
    obtain ⟨s', hs', hinv, hused⟩ := (hs.step_undoBlock ⟨hpos, hlt, hrec⟩).1 hfits
    have hih := ih hinv (exists_inFile_step hs' hrec) (hrest s' hs')
    rw [hused] at hih
    rw [Nat.succ_mul]
    omega

end Store

/-- A block of 100 zeros. -/
def zeroBlock : FastBlock := ⟨⟨List.replicate 100 0, by decide⟩, [], by decide⟩

/-- An undo block of zeros that is as large as `writeBlock` allows. -/
def largeUndoBlock : ConstBuffer :=
  ⟨List.replicate (maxBlockFileSize - 9) 0, by rw [List.length_replicate]; decide⟩

theorem length_largeUndoBlock : largeUndoBlock.bytes.length = maxBlockFileSize - 9 :=
  List.length_replicate

theorem legal_zeroBlock {s : Store} : s.Legal (.block zeroBlock) := ⟨by decide, by decide⟩

/-- Two blocks, an undo block for the first file, and another block. -/
def sampleWrites : List Write :=
  [.block zeroBlock, .block zeroBlock, .undoBlock ⟨[1, 2, 3], by decide⟩ 5 0, .block zeroBlock]

theorem each_sampleWrites : Runs.Each (Store.step (fun _ => 0) .main)
    (fun s w => s.Legal w ∧ s.Fits w) (DBPrivate.empty, []) sampleWrites := by
  obtain ⟨s₁, hs₁, hinv₁, hrec, hundo₁⟩ :=
    (Store.inv_empty (fun _ => 0) .main).step_block legal_zeroBlock
  obtain ⟨s₂, hs₂, hinv₂, -, hundo₂⟩ := hinv₁.step_block legal_zeroBlock
  refine ⟨⟨legal_zeroBlock, trivial⟩, fun t ht => ?_⟩
  obtain rfl := Option.some.inj (hs₁.symm.trans ht)
  refine ⟨⟨legal_zeroBlock, trivial⟩, fun t ht => ?_⟩
  obtain rfl := Option.some.inj (hs₂.symm.trans ht)
  refine ⟨⟨⟨by decide, by decide, Store.exists_inFile_step hs₂ (hrec rfl)⟩, ?_⟩, fun t _ =>
    ⟨⟨legal_zeroBlock, trivial⟩, fun _ _ => trivial⟩⟩
  -- the file for the undo block is still to be made
  have hzero : s₂.1.posInFile .revertBlock 0 = 0 := by
    rw [(hinv₂.files .revertBlock 0).used, Store.contents, hundo₂, hundo₁]
    rfl
  rw [Store.Fits, hzero, Store.undoFileSize, if_pos hzero]
  exact le_trans (by decide) (DBPrivate.growthLimit_bounds .revertBlock (by decide)).1

theorem roundTrip_iff_fits_sampleWrites :
    Runs.Always (Store.step (fun _ => 0) .main) (Store.RoundTrip (fun _ => 0) .main)
      (DBPrivate.empty, []) sampleWrites :=
  (roundTrip_iff_fits (fun _ => 0) .main sampleWrites
    (each_sampleWrites.mono fun _ _ h => h.1)).mpr (each_sampleWrites.mono fun _ _ h => h.2)

/-- Seventeen undo blocks of just below 128 MiB for the first file. -/
theorem not_roundTrip_largeUndoBlock :
    let writes : List Write :=
      .block zeroBlock :: List.replicate 17 (.undoBlock largeUndoBlock 0 0)
    Runs.Each (Store.step (fun _ => 0) .main) Store.Legal (DBPrivate.empty, []) writes ∧
      ¬ Runs.Always (Store.step (fun _ => 0) .main) (Store.RoundTrip (fun _ => 0) .main)
        (DBPrivate.empty, []) writes := by
  intro writes
  have hinv := Store.inv_empty (fun _ => 0) .main
  have hlen := length_largeUndoBlock
  have hmax : maxBlockFileSize = 2 ^ 27 := rfl
  obtain ⟨s₁, hs₁, hinv₁, hrec, -⟩ := hinv.step_block legal_zeroBlock
  have hlegal : Runs.Each (Store.step (fun _ => 0) .main) Store.Legal (DBPrivate.empty, [])
      writes := by
    refine ⟨legal_zeroBlock, fun s' hs' => ?_⟩
    obtain rfl := Option.some.inj (hs₁.symm.trans hs')
    exact Store.legal_replicate (by omega) (by omega) 17 (hrec rfl)
  refine ⟨hlegal, fun halways => ?_⟩
  rw [Store.always_roundTrip_iff hinv writes hlegal] at halways
  have hfits := hinv₁.fits_replicate (by omega) (by omega) 17 (hrec rfl) (halways.2 s₁ hs₁)
  omega

end Blocks
