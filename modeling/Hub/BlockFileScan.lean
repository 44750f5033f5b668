/-
# Finding the blocks of a file again

`LoadExternalBlockFile` (`libs/server/BlocksDB.cpp`) is the part of a reindex that looks at one
block file.  It goes from magic to magic, but looks for the first byte of the magic only, and
only in the first quarter of what is left of the file.

* `scan_spec` : on records that are followed by zeros the scan finds the records;
* `loadExternalBlockFile_spec` : it finds what `writeBlock` has written to the file, and
  registers the counters that `writeBlock` had.
-/
import Hub.BlockFiles

open ByteCodec Streaming

/-- The byte that is searched for: `memchr` takes the lowest byte of the magic, which is its
first one. -/
def CBaseChainParams.firstByte (net : CBaseChainParams) : UInt8 := net.messageStart.headD 0

namespace Blocks.DBPrivate

/-! ## The code -/

/-- `memchr`: the offset of the first byte that is `c`. -/
def memchr (bytes : List UInt8) (c : UInt8) : Option ℕ := bytes.findIdx? (· = c)

/-- The loop of `LoadExternalBlockFile`, from offset `buf` on.  `added` are the calls of
`addBlock` so far; `end_` is where the buffer ends, which is one byte less than the file.  The
first number bounds the rounds; each round moves on by four bytes or more. -/
def scan (magic : UInt8) (file : List UInt8) (nFile end_ : ℕ) :
    ℕ → ℕ → CBlockFileInfo → List CDiskBlockPos →
    Except Fault (CBlockFileInfo × List CDiskBlockPos)
  | 0, _, info, added => .ok (info, added)
  | fuel + 1, buf, info, added =>
      if buf < end_ then
        match memchr (slice file buf (buf + (end_ - buf) / 4)) magic with
        | none => .ok (info, added)
        | some k =>
            if file.length < buf + k + 4 + 4 then .error .outOfBounds
            else
              let blockSize := FastBlock.readAt file (buf + k + 4) 4
              if blockSize < 80 then scan magic file nFile end_ fuel (buf + k + 4) info added
              else
                scan magic file nFile end_ fuel (buf + k + 8 + blockSize)
                  { info with
                    nBlocks := (info.nBlocks + 1) % 2 ^ 32
                    nSize := (buf + k + 8 + blockSize) % 2 ^ 32 }
                  (added ++ [⟨nFile, (buf + k + 8) % 2 ^ 32⟩])
      else .ok (info, added)

/-- `Blocks::DBPrivate::foundBlockFile`. -/
def foundBlockFile (db : DBPrivate) (index : ℕ) (info : CBlockFileInfo) : DBPrivate :=
  let last := max db.nLastBlockFile index
  let v :=
    if db.vinfoBlockFile.length ≤ last then resize db.vinfoBlockFile (last + 1)
    else db.vinfoBlockFile
  { db with
    nLastBlockFile := last
    vinfoBlockFile := v.set index
      { v.getD index CBlockFileInfo.null with nBlocks := info.nBlocks, nSize := info.nSize } }

/-- The whole loop; `loadBlockFile` leaves the last byte of the file out. -/
def scanFile (net : CBaseChainParams) (nFile : ℕ) (file : List UInt8) :
    Except Fault (CBlockFileInfo × List CDiskBlockPos) :=
  scan net.firstByte file nFile (sizeOut file.length - 1) file.length 0 CBlockFileInfo.null []

/-- `LoadExternalBlockFile`: what it returns, the calls of `addBlock`, and the database. -/
def loadExternalBlockFile (net : CBaseChainParams) (db : DBPrivate) (nFile : ℕ) :
    Except Fault (Bool × List CDiskBlockPos × DBPrivate) :=
  match db.files .forwardBlock nFile with
  | none => .ok (false, [], db)
  | some file =>
      match scanFile net nFile file with
      | .error e => .error e
      | .ok (info, added) =>
          .ok (true, added, if info.nBlocks > 0 then db.foundBlockFile nFile info else db)

/-! ## The scan -/

theorem firstByte_spec (net : CBaseChainParams) :
    net.firstByte ≠ 0 ∧ net.messageStart = net.firstByte :: net.messageStart.tail := by
  cases net <;> exact ⟨by decide, rfl⟩

theorem memchr_head {c : UInt8} {bytes : List UInt8} : memchr (c :: bytes) c = some 0 := by
  simp [memchr, List.findIdx?_cons]

theorem memchr_zeros {c : UInt8} (hc : c ≠ 0) (n : ℕ) : memchr (List.replicate n 0) c = none := by
  rw [memchr, List.findIdx?_eq_none_iff]
  intro x hx
  obtain rfl := (List.mem_replicate.mp hx).2
  simpa using hc.symm

variable {Hash : List UInt8 → Uint256} {net : CBaseChainParams} {file : List UInt8} {nFile : ℕ}

/-- **The scan finds the records.** -/
theorem scan_spec (tail : ℕ) (hfile : file.length < 2 ^ 31) : ∀ (recs : List Record) (fuel buf : ℕ)
    (info : CBlockFileInfo) (added : List CDiskBlockPos), recs.length < fuel →
    (∀ r ∈ recs, r.pos.nFile = nFile ∧ r.blockHash = none ∧ 80 < r.block.bytes.length ∧
      8 ≤ r.pos.nPos) →
    FrameFile.Laid (Record.frame Hash net) Record.start buf recs →
    file.drop buf = recs.flatMap (Record.frame Hash net) ++ List.replicate tail 0 → 0 < tail →
    info.nBlocks + recs.length < 2 ^ 32 →
    scan net.firstByte file nFile (file.length - 1) fuel buf info added
      = .ok (⟨info.nBlocks + recs.length,
          if recs = [] then info.nSize
          else buf + (recs.flatMap (Record.frame Hash net)).length, info.nUndoSize⟩,
        added ++ recs.map Record.pos) := by
  obtain ⟨hzero, hmagic⟩ := firstByte_spec net
  intro recs
  induction recs with
  | nil =>
    intro fuel buf info added hfuel _ _ hdrop _ _
    obtain ⟨fuel, rfl⟩ := Nat.exists_eq_add_of_lt hfuel
    have hdone : (Except.ok (info, added) : Except Fault (CBlockFileInfo × List CDiskBlockPos))
        = .ok (⟨info.nBlocks + ([] : List Record).length, info.nSize, info.nUndoSize⟩,
          added ++ ([] : List Record).map Record.pos) := by simp
    rw [scan, if_pos rfl, ← hdone]
    split_ifs with hlt
    · have hnone : memchr (slice file buf (buf + (file.length - 1 - buf) / 4))
          net.firstByte = none := by
        rw [slice, List.drop_take, Nat.add_sub_cancel_left, hdrop, List.flatMap_nil,
          List.nil_append, List.take_replicate]
        exact memchr_zeros hzero _
      rw [hnone]
    · rfl
  | cons r recs ih =>
    intro fuel buf info added hfuel hrecs hlaid hdrop htail hcount
    obtain ⟨fuel, rfl⟩ : ∃ n, fuel = n + 1 := ⟨fuel - 1, by omega⟩
    obtain ⟨hfileNo, hhash, hfull, hpos⟩ := hrecs r List.mem_cons_self
    obtain ⟨hstart, hlaid⟩ := hlaid
    have hframe : (r.frame Hash net).length = 8 + r.block.bytes.length := by
      rw [Store.length_frame, hhash]
      rfl
    have hlen := congrArg List.length hdrop
    rw [List.length_drop, List.flatMap_cons, List.length_append, List.length_append,
      List.length_replicate] at hlen
    rw [List.flatMap_cons, List.append_assoc] at hdrop
    have hnext := FastBlock.drop_of_drop hdrop
    rw [Record.frame, hhash] at hdrop
    simp only [frameOf, List.append_assoc] at hdrop
    -- the first byte is the magic
    have hmem : memchr (slice file buf (buf + (file.length - 1 - buf) / 4))
        net.firstByte = some 0 := by
      rw [slice, List.drop_take, Nat.add_sub_cancel_left, hdrop]
      generalize net.firstByte = c at hmagic
      rw [hmagic, List.cons_append]
      obtain ⟨q, hq⟩ : ∃ q, (file.length - 1 - buf) / 4 = q + 1 :=
        ⟨(file.length - 1 - buf) / 4 - 1, by omega⟩
      rw [hq, List.take_succ_cons]
      exact memchr_head
    have hread : FastBlock.readAt file (buf + 0 + 4) 4 = r.block.bytes.length := by
      have h₁ := FastBlock.drop_of_drop hdrop
      rw [CBaseChainParams.length_messageStart] at h₁
      have hread := FastBlock.readAt_of_drop h₁
      rwa [length_leBytes, leNat_leBytes 4 _ (by omega)] at hread
    have hrpos : r.pos = ⟨nFile, buf + 8⟩ := by
      have hnPos : r.pos.nPos = buf + 8 := by
        rw [Record.start] at hstart
        omega
      rw [← hfileNo, ← hnPos]
    have hend : buf + 0 + 8 + r.block.bytes.length = buf + (r.frame Hash net).length := by omega
    rw [List.length_cons] at hcount
    rw [List.length_cons] at hfuel
    have hih := ih fuel (buf + (r.frame Hash net).length)
      { info with nBlocks := info.nBlocks + 1, nSize := buf + (r.frame Hash net).length }
      (added ++ [r.pos]) (by omega) (fun r' hr' => hrecs r' (List.mem_cons_of_mem _ hr')) hlaid hnext htail
      (by show info.nBlocks + 1 + recs.length < _; omega)
    rw [scan, if_pos (by omega), hmem]
    simp only [hread]
    rw [if_neg (by omega), if_neg (by omega), hend, Nat.mod_eq_of_lt (by omega),
      Nat.mod_eq_of_lt (by omega), Nat.mod_eq_of_lt (by omega), Nat.add_zero, ← hrpos, hih]
    have hsize : (if recs = [] then buf + (r.frame Hash net).length
        else buf + (r.frame Hash net).length + (recs.flatMap (Record.frame Hash net)).length)
        = buf + ((r :: recs).flatMap (Record.frame Hash net)).length := by
      rw [List.flatMap_cons, List.length_append]
      split_ifs with hnil
      · rw [hnil, List.flatMap_nil, List.length_nil, Nat.add_zero]
      · omega
    have hblocks : info.nBlocks + 1 + recs.length = info.nBlocks + (recs.length + 1) := by omega
    rw [if_neg (List.cons_ne_nil r recs), hsize, List.length_cons, List.map_cons,
      List.append_assoc, List.singleton_append, ← hblocks]

theorem info_foundBlockFile (db : DBPrivate) (index : ℕ) (info : CBlockFileInfo) :
    ((db.foundBlockFile index info).info index).nBlocks = info.nBlocks ∧
      ((db.foundBlockFile index info).info index).nSize = info.nSize := by
  have hlen : index < (if db.vinfoBlockFile.length ≤ max db.nLastBlockFile index then
      resize db.vinfoBlockFile (max db.nLastBlockFile index + 1)
      else db.vinfoBlockFile).length := by
    split_ifs with hle
    · rw [Store.length_resize _ (by omega)]
      omega
    · omega
  simp only [foundBlockFile, DBPrivate.info]
  generalize (if db.vinfoBlockFile.length ≤ max db.nLastBlockFile index then
      resize db.vinfoBlockFile (max db.nLastBlockFile index + 1)
      else db.vinfoBlockFile) = v at hlen ⊢
  simp [hlen]

theorem loadExternalBlockFile_eq {db : DBPrivate} {info : CBlockFileInfo}
    {added : List CDiskBlockPos} (hfile : db.files .forwardBlock nFile = some file)
    (hscan : scanFile net nFile file = .ok (info, added)) (hpos : info.nBlocks > 0) :
    db.loadExternalBlockFile net nFile = .ok (true, added, db.foundBlockFile nFile info) := by
  simp only [loadExternalBlockFile, hfile, hscan, hpos, if_true]

/-- **What was written is found again.** -/
theorem loadExternalBlockFile_spec {s : Store} (hs : s.Inv Hash net)
    (hne : s.recordsIn .forwardBlock nFile ≠ []) {db : DBPrivate}
    (hdb : db.files .forwardBlock nFile = s.1.files .forwardBlock nFile) :
    ∃ db', db.loadExternalBlockFile net nFile
        = .ok (true, (s.recordsIn .forwardBlock nFile).map Record.pos, db') ∧
      (db'.info nFile).nBlocks = (s.1.info nFile).nBlocks ∧
      (db'.info nFile).nSize = (s.1.info nFile).nSize := by
  obtain ⟨hlaid, hused, hbytes⟩ := hs.files .forwardBlock nFile
  obtain ⟨tail, hfile, htail, hmax, hsize⟩ := hbytes hne
  have hmax' : maxBlockFileSize = 2 ^ 27 := rfl
  have hnull : CBlockFileInfo.null.nBlocks = 0 := rfl
  have hlen : (s.contents Hash net .forwardBlock nFile ++ List.replicate tail 0).length
      < 2 ^ 31 := by
    rw [List.length_append, List.length_replicate]
    omega
  have hcount := Store.length_recordsIn_le Hash net s .forwardBlock nFile
  have hrecs : ∀ r ∈ s.recordsIn .forwardBlock nFile, r.pos.nFile = nFile ∧ r.blockHash = none ∧
      80 < r.block.bytes.length ∧ 8 ≤ r.pos.nPos := by
    intro r hr
    obtain ⟨hmem, hin⟩ := List.mem_filter.mp hr
    simp only [Record.inFile, decide_eq_true_eq] at hin
    obtain ⟨hpos, -, -, hfull, hhash⟩ := hs.records r hmem
    exact ⟨hin.2, hhash.mpr hin.1, hfull hin.1, hpos⟩
  have hfuel : (s.recordsIn .forwardBlock nFile).length
      < (s.contents Hash net .forwardBlock nFile ++ List.replicate tail 0).length := by
    rw [List.length_append, List.length_replicate]
    omega
  have hscan := scan_spec tail hlen (s.recordsIn .forwardBlock nFile) _ 0 CBlockFileInfo.null []
    hfuel hrecs hlaid rfl htail (by rw [hnull]; omega)
  rw [if_neg hne, List.nil_append, Nat.zero_add, hnull, Nat.zero_add] at hscan
  have hpos : 0 < (s.recordsIn .forwardBlock nFile).length := List.length_pos_iff.mpr hne
  refine ⟨db.foundBlockFile nFile ⟨(s.recordsIn .forwardBlock nFile).length,
    (s.contents Hash net .forwardBlock nFile).length, 0⟩, ?_, ?_, ?_⟩
  · apply loadExternalBlockFile_eq (hdb.trans hfile) _ hpos
    rw [scanFile, sizeOut_of_lt hlen]
    exact hscan
  · rw [(info_foundBlockFile db nFile _).1, hs.nBlocks]
  · rw [(info_foundBlockFile db nFile _).2, ← hused]
    rfl

end Blocks.DBPrivate

namespace Blocks

variable (Hash : List UInt8 → Uint256) (net : CBaseChainParams)

/-- **Reindexing recovers what was written.**  After any run of writes from an empty store,
`LoadExternalBlockFile` adds exactly the positions that `writeBlock` returned for the file, in
order, and registers the number of blocks and of bytes that the writer counted. -/
theorem loadExternalBlockFile_recovers (writes : List Write)
    (hlegal : Runs.Each (Store.step Hash net) Store.Legal (DBPrivate.empty, []) writes)
    (s : Store) (hrun : writes.foldlM (Store.step Hash net) (DBPrivate.empty, []) = some s)
    (nFile : ℕ) (hne : s.recordsIn .forwardBlock nFile ≠ []) (db : DBPrivate)
    (hdb : db.files .forwardBlock nFile = s.1.files .forwardBlock nFile) :
    ∃ db', db.loadExternalBlockFile net nFile
        = .ok (true, (s.recordsIn .forwardBlock nFile).map Record.pos, db') ∧
      (db'.info nFile).nBlocks = (s.1.info nFile).nBlocks ∧
      (db'.info nFile).nSize = (s.1.info nFile).nSize := by
  have hinv : s.Inv Hash net := Store.inv_of_run (Store.inv_empty Hash net) hlegal hrun
  exact DBPrivate.loadExternalBlockFile_spec hinv hne hdb

theorem loadExternalBlockFile_recovers_sampleWrites :
    ∃ s : Store, sampleWrites.foldlM (Store.step (fun _ => 0) .main)
        (DBPrivate.empty, []) = some s ∧ s.recordsIn .forwardBlock 0 ≠ [] ∧
      ∃ db', DBPrivate.loadExternalBlockFile .main s.1 0
        = .ok (true, (s.recordsIn .forwardBlock 0).map Record.pos, db') := by
  have hlegal := each_sampleWrites.mono fun _ _ h => h.1
  obtain ⟨s, hrun, -⟩ := ((Store.always_roundTrip_iff (Store.inv_empty (fun _ => 0) .main) _
    hlegal).mpr (each_sampleWrites.mono fun _ _ h => h.2)).final
  have hne : s.recordsIn .forwardBlock 0 ≠ [] := by
    obtain ⟨s₁, hs₁, -, hrec, -⟩ :=
      (Store.inv_empty (fun _ => 0) .main).step_block legal_zeroBlock
    have hrest := hrun
    rw [sampleWrites, List.foldlM_cons, hs₁] at hrest
    obtain ⟨r, hr, hfile⟩ := Runs.foldlM_inv (fun t w t' _ h ht => Store.exists_inFile_step ht h)
      (hrec rfl) hrest
    exact List.ne_nil_of_mem (List.mem_filter.mpr ⟨hr, hfile⟩)
  obtain ⟨db', hload, -, -⟩ := loadExternalBlockFile_recovers (fun _ => 0) .main sampleWrites
    hlegal s hrun 0 hne s.1 rfl
  exact ⟨s, hrun, hne, db', hload⟩

end Blocks
