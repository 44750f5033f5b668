/-
# Hashes of hashes

`CHash256` and `CHash160` (`libs/server/hash.h`) hash what was written twice; the second hash goes
through the same hasher after `Reset`, or through one of the other kind.  `CHMAC_SHA256` and
`CHMAC_SHA512` (`libs/crypto`) keep two hashers, which begin with the key under two masks; the
second mask is put on top of the first.

* `hmac_eq` : what a keyed hasher returns, for any pieces written;
* `compositions_eq_standard` : the four classes in terms of the standards' hashes.
-/
import Hub.Hashers

/-! ## The code -/

/-- `CHash256`. -/
structure CHash256 where
  sha : CSHA256

namespace CHash256

/-- `Write`. -/
def write (h : CHash256) (data : List UInt8) : CHash256 :=
  ⟨h.sha.write data⟩

/-- `Reset`. -/
def reset (h : CHash256) : CHash256 :=
  ⟨h.sha.reset⟩

/-- `Finalize`. -/
def finalize (h : CHash256) : List UInt8 × CHash256 :=
  let (buf, sha) := h.sha.finalize
  let (hash, sha) := (sha.reset.write buf).finalize
  (hash, ⟨sha⟩)

end CHash256

/-- `CHash160`. -/
structure CHash160 where
  sha : CSHA256

namespace CHash160

/-- `Write`. -/
def write (h : CHash160) (data : List UInt8) : CHash160 :=
  ⟨h.sha.write data⟩

/-- `Reset`. -/
def reset (h : CHash160) : CHash160 :=
  ⟨h.sha.reset⟩

/-- `Finalize`; the second hasher is new, with `stack` in its buffer. -/
def finalize (h : CHash160) (stack : Vector UInt8 ripemd160Class.size) : List UInt8 × CHash160 :=
  let (buf, sha) := h.sha.finalize
  (((HashWriter.new stack : CRIPEMD160).write buf).finalize.1, ⟨sha⟩)

end CHash160

/-- `outer` and `inner` of `CHMAC_SHA256` and of `CHMAC_SHA512`. -/
structure Hmac {σ : Type} (C : HashClass σ) where
  outer : HashWriter C
  inner : HashWriter C

namespace Hmac

variable {σ : Type} {C : HashClass σ}

/-- `rkey`: the key, or its hash, and zeros up to the size of a block. -/
def rkey (stack : Vector UInt8 C.size) (key : List UInt8) : List UInt8 :=
  if key.length ≤ C.size then key ++ List.replicate (C.size - key.length) 0
  else
    let hash := ((HashWriter.new stack).write key).finalize.1
    hash ++ List.replicate (C.size - hash.length) 0

/-- The constructor; the buffers of the hashers that it makes hold anything. -/
def new (stack outer inner : Vector UInt8 C.size) (key : List UInt8) : Hmac C :=
  let masked := (rkey stack key).map (· ^^^ 0x5c)
  ⟨(HashWriter.new outer).write masked,
    (HashWriter.new inner).write (masked.map (· ^^^ (0x5c ^^^ 0x36)))⟩

/-- `Write`. -/
def write (h : Hmac C) (data : List UInt8) : Hmac C :=
  { h with inner := h.inner.write data }

/-- `Finalize`. -/
def finalize (h : Hmac C) : List UInt8 :=
  (h.outer.write h.inner.finalize.1).finalize.1

end Hmac

abbrev CHMAC_SHA256 := Hmac sha256Class

abbrev CHMAC_SHA512 := Hmac sha512Class

/-! ## What they return -/

/-- A keyed hash, with `hash` and blocks of `size` bytes. -/
def Standard.hmac (hash : List UInt8 → List UInt8) (size : ℕ) (key m : List UInt8) : List UInt8 :=
  let k := if key.length ≤ size then key else hash key
  let padded := k ++ List.replicate (size - k.length) 0
  hash (padded.map (· ^^^ 0x5c) ++ hash (padded.map (· ^^^ 0x36) ++ m))

/-- A hasher that has been given everything in one piece. -/
theorem HashWriter.finalize_write {σ : Type} {C : HashClass σ} (buf : Vector UInt8 C.size)
    (data : List UInt8) : ((HashWriter.new buf).write data).finalize.1 = C.hash data := by
  have h := ((HashWriter.holds_new buf).write data).finalize
  rw [List.nil_append] at h
  exact h

namespace Hmac

variable {σ : Type} {C : HashClass σ}

/-- The pieces go to the inner hasher. -/
theorem foldl_write (h : Hmac C) (pieces : List (List UInt8)) :
    pieces.foldl write h = { h with inner := pieces.foldl HashWriter.write h.inner } :=
  List.foldl_hom (fun inner : HashWriter C => { h with inner := inner }) fun _ _ => rfl

/-- The masks: both come to the mask of the standard. -/
theorem mask_mask (l : List UInt8) :
    (l.map (· ^^^ 0x5c)).map (· ^^^ (0x5c ^^^ 0x36)) = l.map (· ^^^ 0x36) := by
  rw [List.map_map]
  refine List.map_congr_left fun b _ => ?_
  change b ^^^ 0x5c ^^^ (0x5c ^^^ 0x36) = b ^^^ 0x36
  rw [UInt8.xor_assoc, ← UInt8.xor_assoc 0x5c, UInt8.xor_self, UInt8.zero_xor]

/-- **What a keyed hasher returns**, whatever the pieces are and whatever its buffers held. -/
theorem hmac_eq (stack outer inner : Vector UInt8 C.size) (key : List UInt8)
    (pieces : List (List UInt8)) : (pieces.foldl write (new stack outer inner key)).finalize
      = Standard.hmac C.hash C.size key pieces.flatten := by
  have hkey : rkey stack key = (if key.length ≤ C.size then key else C.hash key)
      ++ List.replicate (C.size - (if key.length ≤ C.size then key else C.hash key).length) 0 := by
    rw [rkey, HashWriter.finalize_write]
    split_ifs <;> rfl
  -- both hashers have been given the key before the pieces
  have hin := ((((HashWriter.holds_new inner).write
    ((rkey stack key).map (· ^^^ 0x36))).foldl_write pieces).finalize)
  have hout := ((((HashWriter.holds_new outer).write ((rkey stack key).map (· ^^^ 0x5c))).write
    (C.hash ((rkey stack key).map (· ^^^ 0x36) ++ pieces.flatten))).finalize)
  rw [List.nil_append] at hin hout
  rw [foldl_write, finalize, new, mask_mask, hin, hout, hkey, Standard.hmac]

end Hmac

namespace Standard

/-- The bytes of a digest of SHA-256. -/
def sha256Bytes (m : List UInt8) : List UInt8 := (SHA256.digest m).toList.flatMap writeBE

/-- The bytes of a digest of SHA-512. -/
def sha512Bytes (m : List UInt8) : List UInt8 := (SHA512.digest m).toList.flatMap writeBE

/-- The bytes of a digest of RIPEMD-160. -/
def ripemd160Bytes (m : List UInt8) : List UInt8 := (RIPEMD160.digest m).toList.flatMap writeLE

theorem length_flatMap_writeBE {w n : ℕ} (v : Vector (BitVec w) n) :
    (v.toList.flatMap writeBE).length = n * (w / 8) := by
  have hword : ∀ x ∈ v.toList, (writeBE x).length = w / 8 := fun x _ => by
    rw [writeBE, List.length_reverse, ByteCodec.length_leBytes]
  rw [List.length_flatMap, List.map_congr_left hword, List.map_const', List.sum_replicate_nat,
    Vector.length_toList]

theorem length_sha256Bytes (m : List UInt8) : (sha256Bytes m).length = 32 :=
  length_flatMap_writeBE (SHA256.digest m)

theorem length_sha512Bytes (m : List UInt8) : (sha512Bytes m).length = 64 :=
  length_flatMap_writeBE (SHA512.digest m)

/-- A keyed hash only asks for the hashes of messages that are a block longer than its own. -/
theorem hmac_congr {f g : List UInt8 → List UInt8} {size output : ℕ} {key m : List UInt8}
    (hfg : ∀ l, l.length < 2 ^ 61 → f l = g l) (houtput : ∀ l, (g l).length = output)
    (hsize : output ≤ size) (hkey : key.length < 2 ^ 61) (hm : size + m.length < 2 ^ 61)
    (hout : size + output < 2 ^ 61) : hmac f size key m = hmac g size key m := by
  have hk : (if key.length ≤ size then key else f key)
      = if key.length ≤ size then key else g key := by
    rw [hfg key hkey]
  have hlen : (if key.length ≤ size then key else g key).length ≤ size := by
    split_ifs with hshort
    · exact hshort
    · rw [houtput]
      exact hsize
  have hpadded (mask : UInt8) (rest : List UInt8) :
      ((((if key.length ≤ size then key else g key) ++ List.replicate (size
        - (if key.length ≤ size then key else g key).length) 0).map (· ^^^ mask)) ++ rest).length
        = size + rest.length := by
    rw [List.length_append, List.length_map, List.length_append, List.length_replicate]
    omega
  have hinner := hfg _ ((hpadded 0x36 m).trans_lt hm)
  rw [hmac, hmac, hk]
  simp only [hinner]
  refine hfg _ ?_
  rw [hpadded, houtput]
  exact hout

/-- **Hashes of hashes.**  For any pieces, and whatever the hashers and their buffers held before:
the double hash, the hash for addresses, and the two keyed hashes. -/
theorem compositions_eq_standard {pieces : List (List UInt8)} {key : List UInt8}
    (h : pieces.flatten.length < 2 ^ 60) (hkey : key.length < 2 ^ 61) :
    (∀ hasher : CHash256, (pieces.foldl CHash256.write hasher.reset).finalize.1
      = sha256Bytes (sha256Bytes pieces.flatten)) ∧
    (∀ (hasher : CHash160) (stack), ((pieces.foldl CHash160.write hasher.reset).finalize stack).1
      = ripemd160Bytes (sha256Bytes pieces.flatten)) ∧
    (∀ stack outer inner,
      (pieces.foldl Hmac.write (Hmac.new stack outer inner key : CHMAC_SHA256)).finalize
        = hmac sha256Bytes 64 key pieces.flatten) ∧
    ∀ stack outer inner,
      (pieces.foldl Hmac.write (Hmac.new stack outer inner key : CHMAC_SHA512)).finalize
        = hmac sha512Bytes 128 key pieces.flatten := by
  have hm : pieces.flatten.length < 2 ^ 61 := by omega
  have hshort : (sha256Bytes pieces.flatten).length < 2 ^ 61 := by
    rw [length_sha256Bytes]
    decide
  refine ⟨fun hasher => ?_, fun hasher stack => ?_, fun stack outer inner => ?_,
    fun stack outer inner => ?_⟩
  · have hfirst := computes_sha256.finalize_pieces hm hasher.sha
    have hpieces : pieces.foldl CHash256.write hasher.reset
        = ⟨pieces.foldl HashWriter.write hasher.sha.reset⟩ :=
      List.foldl_hom CHash256.mk fun _ _ => rfl
    rw [hpieces, CHash256.finalize]
    simp only [hfirst]
    have hsecond := HashWriter.finalize_pieces
      (pieces.foldl HashWriter.write hasher.sha.reset).finalize.2 [sha256Bytes pieces.flatten]
    rw [List.flatten_singleton, computes_sha256.hash hshort] at hsecond
    exact hsecond
  · have hfirst := computes_sha256.finalize_pieces hm hasher.sha
    have hpieces : pieces.foldl CHash160.write hasher.reset
        = ⟨pieces.foldl HashWriter.write hasher.sha.reset⟩ :=
      List.foldl_hom CHash160.mk fun _ _ => rfl
    rw [hpieces, CHash160.finalize]
    simp only [hfirst]
    exact (HashWriter.finalize_write stack _).trans (computes_ripemd160.hash hshort)
  · rw [Hmac.hmac_eq]
    exact hmac_congr (fun _ hl => computes_sha256.hash hl) length_sha256Bytes (by decide) hkey
      (by change 64 + _ < _; omega) (by decide)
  · rw [Hmac.hmac_eq]
    exact hmac_congr (fun _ hl => computes_sha512.hash hl) length_sha512Bytes (by decide) hkey
      (by change 128 + _ < _; omega) (by decide)

/-- Pieces that fill blocks, for the four classes; the second key is longer than a block. -/
theorem compositions_eq_standard_fourPieces :
    (fourPieces.foldl CHash256.write
      (CHash256.mk (HashWriter.new (Vector.replicate 64 0))).reset).finalize.1
      = sha256Bytes (sha256Bytes fourPieces.flatten) ∧
    ((fourPieces.foldl CHash160.write (CHash160.mk (HashWriter.new
      (Vector.replicate 64 0))).reset).finalize (Vector.replicate 64 0)).1
      = ripemd160Bytes (sha256Bytes fourPieces.flatten) ∧
    (fourPieces.foldl Hmac.write (Hmac.new (Vector.replicate 64 0) (Vector.replicate 64 0)
      (Vector.replicate 64 0) [0x6b, 0x79] : CHMAC_SHA256)).finalize
      = hmac sha256Bytes 64 [0x6b, 0x79] fourPieces.flatten ∧
    (fourPieces.foldl Hmac.write (Hmac.new (Vector.replicate 128 0) (Vector.replicate 128 0)
      (Vector.replicate 128 0) (List.replicate 130 0x6b) : CHMAC_SHA512)).finalize
      = hmac sha512Bytes 128 (List.replicate 130 0x6b) fourPieces.flatten := by
  have hlength : fourPieces.flatten.length < 2 ^ 60 := by
    rw [length_fourPieces]
    decide
  have hshort : ([0x6b, 0x79] : List UInt8).length < 2 ^ 61 := by decide
  have hlong : (List.replicate 130 (0x6b : UInt8)).length < 2 ^ 61 := by
    rw [List.length_replicate]
    decide
  exact ⟨(compositions_eq_standard hlength hshort).1 _, (compositions_eq_standard hlength hshort).2.1 _ _,
    (compositions_eq_standard hlength hshort).2.2.1 _ _ _,
    (compositions_eq_standard hlength hlong).2.2.2 _ _ _⟩

end Standard
