/-
# The hashers' `Write` and `Finalize`

`libs/crypto` has four hash classes, `CSHA1`, `CSHA256`, `CSHA512` and `CRIPEMD160`, and all of them
collect what is written in the same way.  A class keeps a state, a buffer for a block that is not
full yet and the number of bytes written.  `Write` fills the buffer if it holds something and a
block comes together, takes further blocks straight from its argument, and puts what is left into
the buffer.  `Finalize` writes the padding.  A buffer is never cleared: `Reset` only forgets how
much of it is used.

## Main results

* `HashWriter.Holds.write` : what was written, whatever the pieces are;
* `HashWriter.Holds.finalize_bufsize` : the padding fills the last block;
* `HashWriter.finalize_pieces` : the pieces' hash is the digest of what they make together.
-/
import Hub.BlockHash
import Hub.InPlaceRounds
import Mathlib.Data.List.GetD

/-- What the four classes differ in. -/
structure HashClass (σ : Type) where
  /-- The size of `buf`. -/
  size : ℕ
  /-- The number that `Finalize` subtracts the fill from. -/
  padBase : ℕ
  sizeBytes : ℕ
  initialState : σ
  transform : σ → List UInt8 → σ
  /-- What `Finalize` writes for `bytes << 3`. -/
  sizedesc : UInt64 → List UInt8
  /-- How `Finalize` writes the state. -/
  writeHash : σ → List UInt8
  size_dvd : size ∣ 2 ^ 64
  sizeBytes_lt : sizeBytes < size
  padBase_eq : padBase = 2 * size - sizeBytes - 1
  length_sizedesc : ∀ x, (sizedesc x).length = sizeBytes

namespace HashClass

variable {σ : Type}

/-- The hash that a class computes, of a message as a whole. -/
def plain (C : HashClass σ) : BlockHash σ where
  blockSize := C.size
  sizeBytes := C.sizeBytes
  init := C.initialState
  transform := C.transform
  sizeDesc n := C.sizedesc (UInt64.ofNat (8 * n))
  sizeBytes_lt := C.sizeBytes_lt
  length_sizeDesc _ := C.length_sizedesc _

/-- The hash of a message. -/
def hash (C : HashClass σ) (m : List UInt8) : List UInt8 :=
  C.writeHash (C.plain.digest m)

theorem size_pos (C : HashClass σ) : 0 < C.size :=
  C.plain.blockSize_pos

end HashClass

/-- `memcpy`. -/
def memcpy {n : ℕ} (buf : Vector UInt8 n) (i : ℕ) (data : List UInt8) : Vector UInt8 n :=
  .ofFn fun j => if i ≤ j ∧ j < i + data.length then data.getD (j - i) 0 else buf.get j

/-- What is in the buffer up to the end of what was copied. -/
theorem take_memcpy {n i : ℕ} (buf : Vector UInt8 n) (data : List UInt8)
    (h : i + data.length ≤ n) :
    (memcpy buf i data).toList.take (i + data.length) = buf.toList.take i ++ data := by
  refine List.ext_getElem ?_ fun j hj hj' => ?_
  · rw [List.length_take, List.length_append, List.length_take, Vector.length_toList,
      Vector.length_toList]
    omega
  · rw [List.length_take, Vector.length_toList] at hj
    simp only [List.getElem_take, Vector.getElem_toList, memcpy, Vector.getElem_ofFn]
    by_cases hi : j < i
    · have hleft : j < (buf.toList.take i).length := by
        rw [List.length_take, Vector.length_toList]
        omega
      rw [if_neg (by omega), List.getElem_append_left hleft, List.getElem_take, Vector.getElem_toList]
      rfl
    · rw [if_pos ⟨by omega, by omega⟩, List.getElem_append_right (by
        rw [List.length_take, Vector.length_toList]; omega)]
      have hlen : (buf.toList.take i).length = i := by
        rw [List.length_take, Vector.length_toList]
        omega
      simp only [hlen]
      exact List.getD_eq_getElem data 0 (by omega)

/-- `s`, `buf` and `bytes`. -/
structure HashWriter {σ : Type} (C : HashClass σ) where
  s : σ
  buf : Vector UInt8 C.size
  bytes : UInt64

namespace HashWriter

variable {σ : Type} {C : HashClass σ}

theorem length_drop_lt (data : List UInt8) (h : C.size ≤ data.length) :
    (data.drop C.size).length < data.length := by
  have := C.size_pos
  rw [List.length_drop]
  omega

/-- The loop of `Write`: full blocks straight from the source. -/
def writeChunks (w : HashWriter C) (data : List UInt8) : HashWriter C × List UInt8 :=
  if _h : C.size ≤ data.length then
    writeChunks { w with
      s := C.transform w.s (data.take C.size)
      bytes := w.bytes + UInt64.ofNat C.size } (data.drop C.size)
  else (w, data)
termination_by data.length
decreasing_by exact length_drop_lt data _h

/-- `Write`. -/
def write (w : HashWriter C) (data : List UInt8) : HashWriter C :=
  let bufsize := w.bytes.toNat % C.size
  let (w, data, bufsize) :=
    if bufsize ≠ 0 ∧ C.size ≤ bufsize + data.length then
      -- the buffer is filled, and processed
      let buf := memcpy w.buf bufsize (data.take (C.size - bufsize))
      ({ w with
        s := C.transform w.s buf.toList
        buf := buf
        bytes := w.bytes + UInt64.ofNat (C.size - bufsize) }, data.drop (C.size - bufsize), 0)
    else (w, data, bufsize)
  let (w, data) := w.writeChunks data
  if data ≠ [] then
    { w with buf := memcpy w.buf bufsize data, bytes := w.bytes + UInt64.ofNat data.length }
  else w

/-- `Finalize`: the hash, and the hasher as it is left. -/
def finalize (w : HashWriter C) : List UInt8 × HashWriter C :=
  let pad : List UInt8 := 0x80 :: List.replicate (C.size - 1) 0
  let sizedesc := C.sizedesc (w.bytes <<< 3)
  let w := w.write (pad.take (1 + (C.padBase - w.bytes.toNat % C.size) % C.size))
  let w := w.write sizedesc
  (C.writeHash w.s, w)

/-- `Reset`. -/
def reset (w : HashWriter C) : HashWriter C :=
  { w with bytes := 0, s := C.initialState }

/-- A new hasher; the buffer holds whatever was there. -/
def new (buf : Vector UInt8 C.size) : HashWriter C :=
  ⟨C.initialState, buf, 0⟩

/-- What has been written is `m`. -/
structure Holds (w : HashWriter C) (m : List UInt8) : Prop where
  bytes : w.bytes = UInt64.ofNat m.length
  s : w.s = C.plain.full m
  buf : w.buf.toList.take (m.length % C.size) = C.plain.rest m

theorem holds_new (buf : Vector UInt8 C.size) : (new buf).Holds [] where
  bytes := rfl
  s := (BlockHash.full_nil (H := C.plain)).symm
  buf := by rw [List.length_nil, Nat.zero_mod, List.take_zero, BlockHash.rest_nil]

theorem holds_reset (w : HashWriter C) : w.reset.Holds [] where
  bytes := rfl
  s := (BlockHash.full_nil (H := C.plain)).symm
  buf := by rw [List.length_nil, Nat.zero_mod, List.take_zero, BlockHash.rest_nil]

variable {w : HashWriter C} {m : List UInt8}

/-- How much of the buffer is used; the count wraps around at a full block. -/
theorem Holds.bufsize (h : w.Holds m) : w.bytes.toNat % C.size = m.length % C.size := by
  rw [h.bytes, UInt64.toNat_ofNat', Nat.mod_mod_of_dvd _ C.size_dvd]

/-- Full blocks, behind what has been written and what is in the buffer. -/
theorem Holds.blocks (h : w.Holds m) (data : List UInt8) {s : σ} (buf : Vector UInt8 C.size)
    (bytes : UInt64) (hbytes : bytes = w.bytes + UInt64.ofNat data.length)
    (hlen : m.length % C.size + data.length = C.size)
    (hs : s = C.transform w.s (C.plain.rest m ++ data)) :
    (⟨s, buf, bytes⟩ : HashWriter C).Holds (m ++ data) ∧ (m ++ data).length % C.size = 0 := by
  have hrest : (C.plain.rest m ++ data).length = C.plain.blockSize := by
    rw [List.length_append, BlockHash.length_rest]
    exact hlen
  have hone : (C.plain.rest m ++ data).length / C.plain.blockSize = 1 := by
    rw [hrest]
    exact Nat.div_self C.plain.blockSize_pos
  have hzero : (m ++ data).length % C.size = 0 := by
    rw [List.length_append, ← Nat.mod_add_mod, hlen, Nat.mod_self]
  refine ⟨⟨?_, ?_, ?_⟩, hzero⟩
  · rw [hbytes, h.bytes, ← UInt64.ofNat_add, List.length_append]
  · rw [BlockHash.full_append, hone, BlockHash.absorb_one _ hrest, hs, h.s]
    rfl
  · rw [hzero, List.take_zero, BlockHash.rest_append, hone, Nat.one_mul,
      List.drop_of_length_le (Nat.le_of_eq hrest)]

/-- **The loop.**  Between two blocks it takes as many blocks as there are. -/
theorem Holds.writeChunks (h : w.Holds m) (hm : m.length % C.size = 0) (data : List UInt8) :
    ∃ front rest, data = front ++ rest ∧ rest.length < C.size ∧ (w.writeChunks data).2 = rest ∧
      (w.writeChunks data).1.Holds (m ++ front) ∧ (m ++ front).length % C.size = 0 := by
  induction w, data using HashWriter.writeChunks.induct generalizing m with
  | case1 w data hlen ih =>
    have htake : (data.take C.size).length = C.size := by
      rw [List.length_take]
      exact Nat.min_eq_left hlen
    have hnil : C.plain.rest m = [] := by
      refine List.eq_nil_of_length_eq_zero ?_
      rw [BlockHash.length_rest]
      exact hm
    obtain ⟨h', hm'⟩ := h.blocks (data.take C.size) w.buf
      (w.bytes + UInt64.ofNat C.size) (by rw [htake]) (by rw [hm, htake, Nat.zero_add])
      (by rw [hnil, List.nil_append])
    obtain ⟨front, rest, hdata, hshort, hsnd, hholds, hfull⟩ := ih h' hm'
    refine ⟨data.take C.size ++ front, rest, ?_, hshort, ?_, ?_, ?_⟩
    · rw [List.append_assoc, ← hdata, List.take_append_drop]
    · rw [HashWriter.writeChunks, dif_pos hlen]
      exact hsnd
    · rw [HashWriter.writeChunks, dif_pos hlen, ← List.append_assoc]
      exact hholds
    · rw [← List.append_assoc]
      exact hfull
  | case2 w data hlen =>
    refine ⟨[], data, rfl, by omega, ?_, ?_, ?_⟩
    · rw [HashWriter.writeChunks, dif_neg hlen]
    · rw [HashWriter.writeChunks, dif_neg hlen, List.append_nil]
      exact h
    · rw [List.append_nil]
      exact hm

/-- What is left goes into the buffer. -/
theorem Holds.store (h : w.Holds m) (data : List UInt8)
    (hlen : m.length % C.size + data.length < C.size) :
    ({ w with
      buf := memcpy w.buf (m.length % C.size) data
      bytes := w.bytes + UInt64.ofNat data.length } : HashWriter C).Holds (m ++ data) := by
  have hrest : (C.plain.rest m ++ data).length / C.plain.blockSize = 0 := by
    rw [List.length_append, BlockHash.length_rest]
    exact Nat.div_eq_of_lt hlen
  have hmod : (m ++ data).length % C.size = m.length % C.size + data.length := by
    rw [List.length_append, ← Nat.mod_add_mod, Nat.mod_eq_of_lt hlen]
  refine ⟨?_, ?_, ?_⟩
  · simp only [h.bytes]
    rw [← UInt64.ofNat_add, List.length_append]
  · rw [BlockHash.full_append, hrest, BlockHash.absorb]
    exact h.s
  · rw [hmod, take_memcpy _ _ (Nat.le_of_lt hlen), h.buf, BlockHash.rest_append, hrest,
      Nat.zero_mul, List.drop_zero]

/-- The end of `Write`. -/
theorem Holds.store_rest (h : w.Holds m) {bufsize : ℕ} {data : List UInt8}
    (hbufsize : m.length % C.size = bufsize) (hlen : bufsize + data.length < C.size) :
    (if data ≠ [] then
      ({ w with
        buf := memcpy w.buf bufsize data
        bytes := w.bytes + UInt64.ofNat data.length } : HashWriter C)
      else w).Holds (m ++ data) := by
  subst hbufsize
  by_cases hnil : data = []
  · rw [if_neg (not_not.mpr hnil), hnil, List.append_nil]
    exact h
  · rw [if_pos hnil]
    exact h.store data hlen

/-- `Write` with an empty buffer: full blocks, and what is left. -/
theorem Holds.write_empty (h : w.Holds m) (hm : m.length % C.size = 0) (data : List UInt8) :
    (let (w', rest) := w.writeChunks data
      if rest ≠ [] then
        ({ w' with
          buf := memcpy w'.buf 0 rest
          bytes := w'.bytes + UInt64.ofNat rest.length } : HashWriter C)
      else w').Holds (m ++ data) := by
  obtain ⟨front, rest, hdata, hshort, hsnd, hholds, hfull⟩ := h.writeChunks hm data
  have hall : m ++ data = m ++ front ++ rest := by rw [hdata, List.append_assoc]
  have hrest := hholds.store_rest hfull (by rw [Nat.zero_add]; exact hshort)
  simp only [hsnd, hall]
  exact hrest

/-- **`Write`.** -/
theorem Holds.write (h : w.Holds m) (data : List UInt8) : (w.write data).Holds (m ++ data) := by
  have hlt := Nat.mod_lt m.length C.size_pos
  unfold HashWriter.write
  rw [h.bufsize]
  by_cases hfill : m.length % C.size ≠ 0 ∧ C.size ≤ m.length % C.size + data.length
  · -- the buffer is filled, and the rest of the data begins with a block
    have htake : (data.take (C.size - m.length % C.size)).length = C.size - m.length % C.size := by
      rw [List.length_take]
      omega
    have hbuf : (memcpy w.buf (m.length % C.size)
        (data.take (C.size - m.length % C.size))).toList
          = C.plain.rest m ++ data.take (C.size - m.length % C.size) := by
      have hcopy := take_memcpy (i := m.length % C.size) w.buf
        (data.take (C.size - m.length % C.size)) (by omega)
      rw [htake, h.buf, List.take_of_length_le (by rw [Vector.length_toList]; omega)] at hcopy
      exact hcopy
    obtain ⟨h', hm'⟩ := h.blocks (data.take (C.size - m.length % C.size))
      (memcpy w.buf (m.length % C.size) (data.take (C.size - m.length % C.size)))
      (w.bytes + UInt64.ofNat (C.size - m.length % C.size)) (by rw [htake])
      (by rw [htake]; omega) rfl
    have hrest := h'.write_empty hm' (data.drop (C.size - m.length % C.size))
    rw [List.append_assoc, List.take_append_drop] at hrest
    simp only [if_pos hfill, hbuf]
    exact hrest
  · simp only [if_neg hfill]
    by_cases hzero : m.length % C.size = 0
    · rw [hzero]
      exact h.write_empty hzero data
    · -- no block comes together
      have hshort : ¬ C.size ≤ data.length := by omega
      have hloop : w.writeChunks data = (w, data) := by rw [HashWriter.writeChunks, dif_neg hshort]
      simp only [hloop]
      exact h.store_rest rfl (by omega)

/-- Any pieces, one after the other. -/
theorem Holds.foldl_write (h : w.Holds m) (pieces : List (List UInt8)) :
    (pieces.foldl HashWriter.write w).Holds (m ++ pieces.flatten) := by
  induction pieces generalizing w m with
  | nil =>
    rw [List.flatten_nil, List.append_nil]
    exact h
  | cons data pieces ih =>
    rw [List.foldl_cons, List.flatten_cons, ← List.append_assoc]
    exact ih (h.write data)

/-- `Finalize` writes the padding. -/
theorem Holds.padded (h : w.Holds m) :
    w.finalize.2.Holds (m ++ C.plain.padding m.length) := by
  have hsize : w.bytes <<< 3 = UInt64.ofNat (8 * m.length) := by
    rw [h.bytes, ← UInt64.toNat_inj, UInt64.toNat_shiftLeft, UInt64.toNat_ofNat',
      UInt64.toNat_ofNat', Nat.shiftLeft_eq]
    change m.length % 2 ^ 64 * 2 ^ 3 % 2 ^ 64 = 8 * m.length % 2 ^ 64
    omega
  have hzeros : (C.padBase - w.bytes.toNat % C.size) % C.size = C.plain.zeros m.length := by
    rw [h.bufsize, C.padBase_eq]
    rfl
  have hlt : C.plain.zeros m.length < C.size := Nat.mod_lt _ C.size_pos
  have hpad : (0x80 :: List.replicate (C.size - 1) (0 : UInt8)).take (1 + C.plain.zeros m.length)
      = 0x80 :: List.replicate (C.plain.zeros m.length) 0 := by
    rw [Nat.add_comm, List.take_succ_cons, List.take_replicate, Nat.min_eq_left (by omega)]
  have hend := (h.write (0x80 :: List.replicate (C.plain.zeros m.length) 0)).write
    (C.sizedesc (UInt64.ofNat (8 * m.length)))
  rw [HashWriter.finalize, hsize, hzeros, hpad, BlockHash.padding]
  rw [List.append_assoc, List.cons_append] at hend
  exact hend

/-- **`Finalize`.** -/
theorem Holds.finalize (h : w.Holds m) : w.finalize.1 = C.hash m :=
  congrArg C.writeHash h.padded.s

/-- The padding leaves nothing in the buffer. -/
theorem Holds.finalize_bufsize (h : w.Holds m) : w.finalize.2.bytes.toNat % C.size = 0 := by
  rw [h.padded.bufsize, List.length_append]
  exact C.plain.padding_full m.length

/-- **The pieces' hash** is the digest of what they make together, for a new hasher and for one that
is reset, whatever its buffer holds. -/
theorem finalize_pieces (w : HashWriter C) (pieces : List (List UInt8)) :
    (pieces.foldl HashWriter.write w.reset).finalize.1 = C.hash pieces.flatten :=
  ((holds_reset w).foldl_write pieces).finalize

end HashWriter
