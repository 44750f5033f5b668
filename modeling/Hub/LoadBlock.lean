/-
# Corrupt records in the block files

`Blocks::DBPrivate::loadBlock` trusts neither the position that it is given nor the size in
front of the block: both are compared with the size of the file.  The position, the size and
the length of a checksum are added as numbers of 32 bits, and the size of a file of 2 GiB or
more has gone through an `int`.

* `loadBlock_inside`, `loadBlock_outside` : what happens to a record inside the file, and to
  one that reaches beyond;
* `caught_iff_detectable` : a corrupt record is caught exactly when the sum does not come out
  too small.
-/
import Hub.BlockFiles

open ByteCodec Streaming

namespace Blocks.DBPrivate

/-- Who calls `loadBlock`: `DB::loadBlock`, or `DB::loadUndoBlock` with the hash of the
block. -/
inductive Caller where
  | loadBlock
  | loadUndoBlock (origBlockHash : Uint256)

namespace Caller

/-- The type of file that is asked for. -/
def type : Caller → BlockType
  | loadBlock => .forwardBlock
  | loadUndoBlock _ => .revertBlock

/-- The hash that the checksum is made with. -/
def blockHash : Caller → Option Uint256
  | loadBlock => none
  | loadUndoBlock origBlockHash => some origBlockHash

end Caller

variable (Hash : List UInt8 → Uint256) (db : DBPrivate)

/-- `loadBlock` at any `CDiskBlockPos`.  The number of a file is an `int`; `mapFile` looks it
up with `std::vector::at`, which throws `std::out_of_range` for a negative one. -/
def loadAt (nFile : ℤ) (nPos : ℕ) (caller : Caller) : Except Fault (List UInt8) :=
  match nFile with
  | .ofNat n => db.loadBlock Hash ⟨n, nPos⟩ caller.type caller.blockHash
  | .negSucc _ =>
      if nPos < 4 then .error (.runtimeError "Blocks::loadBlock got Database corruption")
      else .error (.runtimeError "vector::_M_range_check")

/-- The mapped file at a position, if there is one. -/
def mapped (nFile : ℤ) (caller : Caller) : Option (List UInt8) :=
  match nFile with
  | .ofNat n => db.files caller.type n
  | .negSucc _ => none

/-- The size field in front of a block. -/
def sizeField (file : List UInt8) (nPos : ℕ) : ℕ := FastBlock.readAt file (nPos - 4) 4

/-- Where a record ends, with its checksum if it has one. -/
def recordEnd (file : List UInt8) (nPos : ℕ) (caller : Caller) : ℕ :=
  nPos + sizeField file nPos + trailerSize caller.blockHash

/-- `loadBlock` throws, or it returns a part of the mapped file and has read nothing
outside. -/
def Caught (nFile : ℤ) (nPos : ℕ) (caller : Caller) : Prop :=
  match db.loadAt Hash nFile nPos caller with
  | .error fault => ∃ what, fault = .runtimeError what
  | .ok block => ∃ file start stop, db.mapped nFile caller = some file ∧
      block = slice file start stop ∧ start ≤ stop ∧
      stop + trailerSize caller.blockHash ≤ file.length

/-- The test against the size of the file works.  Below 2 GiB the sum of 32 bits must not
wrap around to at most the size of the file; from there to 4 GiB no record is too large for
the test, and beyond only the size modulo `2 ^ 32` is known. -/
def Detectable (file : List UInt8) (nPos : ℕ) (caller : Caller) : Prop :=
  if file.length < 2 ^ 31 then
    recordEnd file nPos caller < 2 ^ 32 ∨ file.length + 2 ^ 32 < recordEnd file nPos caller
  else if file.length % 2 ^ 32 < 2 ^ 31 then
    recordEnd file nPos caller ≤ file.length ∨
      file.length % 2 ^ 32 < recordEnd file nPos caller % 2 ^ 32
  else recordEnd file nPos caller ≤ file.length

variable {Hash db}

@[simp] theorem loadAt_natCast (n nPos : ℕ) (caller : Caller) :
    db.loadAt Hash n nPos caller
      = db.loadBlock Hash ⟨n, nPos⟩ caller.type caller.blockHash := rfl

/-- There is no file with a negative number. -/
theorem loadAt_negSucc (n nPos : ℕ) (caller : Caller) :
    ∃ what, db.loadAt Hash (.negSucc n) nPos caller = .error (.runtimeError what) := by
  by_cases hlow : nPos < 4
  · exact ⟨_, if_pos hlow⟩
  · exact ⟨_, if_neg hlow⟩

theorem trailerSize_le (blockHash : Option Uint256) : trailerSize blockHash ≤ 32 := by
  unfold trailerSize
  split <;> omega

theorem sizeField_lt (file : List UInt8) (nPos : ℕ) : sizeField file nPos < 2 ^ 32 := by
  have h := FastBlock.readAt_lt file (nPos - 4) 4
  rwa [show 256 ^ 4 = 2 ^ 32 by decide] at h

/-- From 2 GiB on the reported size is that of the low 32 bits, and it is huge where they make
a negative number. -/
theorem sizeOut_low {size : ℕ} (h : size % 2 ^ 32 < 2 ^ 31) : sizeOut size = size % 2 ^ 32 := by
  simp only [sizeOut, toInt32, Int.bmod_def]
  omega

theorem sizeOut_high {size : ℕ} (h : ¬ size % 2 ^ 32 < 2 ^ 31) :
    2 ^ 63 ≤ sizeOut size := by
  simp only [sizeOut, toInt32, Int.bmod_def]
  omega

/-- The tests of a caller agree about the type. -/
theorem Caller.not_assertion (caller : Caller) :
    ¬ (caller.blockHash ≠ none ∧ caller.type ≠ .revertBlock) := by
  cases caller with
  | loadBlock => exact fun h => h.1 rfl
  | loadUndoBlock origBlockHash => exact fun h => h.2 rfl

/-- The last part of `loadBlock`, on a record inside the file. -/
theorem verified_inside {file : List UInt8} {nPos blockSize : ℕ} {blockHash : Option Uint256}
    (h : nPos + blockSize + trailerSize blockHash ≤ file.length) :
    verified Hash file nPos blockSize blockHash = .ok (slice file nPos (nPos + blockSize)) ∨
      ∃ what, verified Hash file nPos blockSize blockHash = .error (.runtimeError what) := by
  rw [verified, if_neg (by omega)]
  cases blockHash with
  | none => exact .inl rfl
  | some hash =>
    dsimp only
    split
    · exact .inl rfl
    · exact .inr ⟨_, rfl⟩

theorem verified_outside {file : List UInt8} {nPos blockSize : ℕ} {blockHash : Option Uint256}
    (h : file.length < nPos + blockSize + trailerSize blockHash) :
    verified Hash file nPos blockSize blockHash = .error .outOfBounds := by
  rw [verified, if_pos h]

/-! ## A record in a file -/

section File

variable {file : List UInt8} {n nPos : ℕ} {caller : Caller}
  (hfile : db.files caller.type n = some file) (hlow : 4 ≤ nPos)
  (hhigh : nPos < sizeOut file.length)

include hfile hlow hhigh

/-- A record inside the file is returned, or its checksum is wrong, or it is taken for one
that is not inside. -/
theorem loadBlock_inside (h : recordEnd file nPos caller ≤ file.length) :
    db.loadBlock Hash ⟨n, nPos⟩ caller.type caller.blockHash
        = .ok (slice file nPos (nPos + sizeField file nPos)) ∨
      ∃ what, db.loadBlock Hash ⟨n, nPos⟩ caller.type caller.blockHash
        = .error (.runtimeError what) := by
  have hend : nPos ≤ recordEnd file nPos caller := by
    rw [recordEnd]
    omega
  rw [DBPrivate.loadBlock, if_neg (by dsimp only; omega), hfile]
  dsimp only
  rw [if_neg (by omega), if_neg (by omega)]
  split
  · exact .inr ⟨_, rfl⟩
  · rw [if_neg caller.not_assertion]
    exact verified_inside h

/-- A record that reaches beyond the end is noticed if the sum of 32 bits does. -/
theorem loadBlock_outside (h : file.length < recordEnd file nPos caller) :
    db.loadBlock Hash ⟨n, nPos⟩ caller.type caller.blockHash
      = if nPos ≤ file.length ∧ sizeOut file.length < recordEnd file nPos caller % 2 ^ 32 then
          .error (.runtimeError "block sized bigger than file")
        else .error .outOfBounds := by
  rw [DBPrivate.loadBlock, if_neg (by dsimp only; omega), hfile]
  dsimp only
  rw [if_neg (by omega)]
  rcases Nat.lt_or_ge file.length nPos with hbehind | hinside
  · rw [if_pos hbehind, if_neg (by omega)]
  · rw [if_neg (by omega), recordEnd, sizeField]
    by_cases hsum : sizeOut file.length <
        (nPos + FastBlock.readAt file (nPos - 4) 4 + trailerSize caller.blockHash) % 2 ^ 32
    · rw [if_pos hsum, if_pos ⟨hinside, hsum⟩]
    · rw [if_neg hsum, if_neg caller.not_assertion, if_neg fun hc => hsum hc.2]
      exact verified_outside h

theorem caught_iff :
    Caught Hash db n nPos caller ↔ recordEnd file nPos caller ≤ file.length ∨
      (nPos ≤ file.length ∧ sizeOut file.length < recordEnd file nPos caller % 2 ^ 32) := by
  rw [Caught, loadAt_natCast]
  rcases Nat.lt_or_ge file.length (recordEnd file nPos caller) with hout | hin
  · rw [loadBlock_outside hfile hlow hhigh hout]
    by_cases hsum : nPos ≤ file.length ∧ sizeOut file.length < recordEnd file nPos caller % 2 ^ 32
    · rw [if_pos hsum]
      exact iff_of_true ⟨_, rfl⟩ (.inr hsum)
    · rw [if_neg hsum]
      refine iff_of_false ?_ ?_
      · rintro ⟨what, hwhat⟩
        cases hwhat
      · rintro (hc | hc)
        · omega
        · exact hsum hc
  · refine iff_of_true ?_ (.inl hin)
    rcases loadBlock_inside hfile hlow hhigh hin with hok | ⟨what, herr⟩
    · rw [hok]
      exact ⟨file, nPos, nPos + sizeField file nPos, hfile, rfl, Nat.le_add_right _ _, hin⟩
    · rw [herr]
      exact ⟨what, rfl⟩

end File

/-- The three ranges of sizes. -/
theorem detectable_iff {file : List UInt8} {nPos : ℕ} {caller : Caller}
    (hhigh : nPos < sizeOut file.length) (hpos : nPos < 2 ^ 32) :
    Detectable file nPos caller ↔ recordEnd file nPos caller ≤ file.length ∨
      (nPos ≤ file.length ∧ sizeOut file.length < recordEnd file nPos caller % 2 ^ 32) := by
  have hfield := sizeField_lt file nPos
  have htrailer := trailerSize_le caller.blockHash
  have hend : recordEnd file nPos caller
      = nPos + sizeField file nPos + trailerSize caller.blockHash := rfl
  unfold Detectable
  split
  next hsmall =>
    rw [sizeOut_of_lt hsmall] at hhigh ⊢
    omega
  next hlarge =>
    split
    next hlow =>
      rw [sizeOut_low hlow] at hhigh ⊢
      omega
    next hneg =>
      have hhuge := sizeOut_high hneg
      omega

/-- A position that is refused. -/
theorem loadBlock_refused {n nPos : ℕ} {caller : Caller}
    (h : ∀ file, db.files caller.type n = some file → 4 ≤ nPos → sizeOut file.length ≤ nPos) :
    ∃ what, db.loadBlock Hash ⟨n, nPos⟩ caller.type caller.blockHash
      = .error (.runtimeError what) := by
  by_cases hlow : nPos < 4
  · exact ⟨_, by rw [DBPrivate.loadBlock, if_pos hlow]⟩
  · cases hfile : db.files caller.type n with
    | none => exact ⟨_, by rw [DBPrivate.loadBlock, if_neg hlow, hfile]⟩
    | some file =>
      have hout := h file hfile (by omega)
      refine ⟨"position outside of file", ?_⟩
      rw [DBPrivate.loadBlock, if_neg hlow, hfile]
      dsimp only
      rw [if_pos hout]

/-- **Corrupt size fields.**  `loadBlock` throws or stays inside the file exactly when the
position is refused or the test against the size of the file works. -/
theorem caught_iff_detectable (Hash : List UInt8 → Uint256) (db : DBPrivate) (nFile : ℤ)
    (nPos : ℕ) (hpos : nPos < 2 ^ 32) (caller : Caller) :
    Caught Hash db nFile nPos caller ↔ ∀ file, db.mapped nFile caller = some file →
      4 ≤ nPos → nPos < sizeOut file.length → Detectable file nPos caller := by
  cases nFile with
  | negSucc n =>
    refine iff_of_true ?_ (fun file hfile => (by cases hfile))
    obtain ⟨what, hwhat⟩ : ∃ what, db.loadAt Hash (.negSucc n) nPos caller = _ :=
      loadAt_negSucc n nPos caller
    rw [Caught, hwhat]
    exact ⟨what, rfl⟩
  | ofNat n =>
    constructor
    · intro h file hfile hlow hhigh
      exact (detectable_iff hhigh hpos).mpr ((caught_iff hfile hlow hhigh).mp h)
    · intro h
      by_cases haccepted : ∃ file, db.files caller.type n = some file ∧ 4 ≤ nPos ∧
          nPos < sizeOut file.length
      · obtain ⟨file, hfile, hlow, hhigh⟩ := haccepted
        exact (caught_iff hfile hlow hhigh).mpr
          ((detectable_iff hhigh hpos).mp (h file hfile hlow hhigh))
      · obtain ⟨what, hwhat⟩ : ∃ what, db.loadAt Hash n nPos caller = _ :=
          loadBlock_refused fun file hfile hlow =>
            Nat.le_of_not_lt fun hhigh => haccepted ⟨file, hfile, hlow, hhigh⟩
        show Caught Hash db n nPos caller
        rw [Caught, hwhat]
        exact ⟨what, rfl⟩

/-- A file with one record of `size` zeros. -/
def oneRecord (size sizeField : ℕ) : DBPrivate where
  vinfoBlockFile := []
  nLastBlockFile := 0
  files := fun _ _ => some (CBaseChainParams.main.messageStart ++ leBytes 4 sizeField ++
    List.replicate size 0)

/-- A record of 100 bytes is returned. -/
theorem caught_iff_detectable_intact :
    Caught (fun _ => 0) (oneRecord 100 100) 0 8 .loadBlock :=
  (caught_iff_detectable (fun _ => 0) (oneRecord 100 100) 0 8 (by decide) .loadBlock).mpr
    fun file hfile _ _ => (by
      obtain rfl := Option.some.inj hfile
      rw [Detectable, if_pos (by decide)]
      exact .inl (by decide))

/-- The size field `0xFFFFFFD8` of an undo block: with the position 8 and the 32 bytes of the checksum
the sum is zero. -/
theorem not_caught_corruptSize :
    ¬ Caught (fun _ => 0) (oneRecord 100 0xFFFFFFD8) 0 8 (.loadUndoBlock 5) := by
  have h : (oneRecord 100 0xFFFFFFD8).loadAt (fun _ => 0) 0 8 (.loadUndoBlock 5)
      = .error .outOfBounds := by decide
  rw [Caught, h]
  rintro ⟨what, hwhat⟩
  cases hwhat

end Blocks.DBPrivate
