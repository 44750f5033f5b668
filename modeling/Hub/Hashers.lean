/-
# The hashers

`CSHA1`, `CSHA256`, `CSHA512` and `CRIPEMD160` as their `Transform`s compute them, and as the
standards define them.  A `Transform` never moves its working variables: a line of it is a call whose
arguments are named one further than those of the line before.  Of the message schedule it keeps
sixteen words, each in the place of the one sixteen before it.

What the classes return is what the standards define, for every message that the standards define a
hash of, whatever pieces it is written in and whatever the hasher was used for before.

## Main results

* `sha2Transform_eq`, `sha1Transform_eq`, `ripemd160Transform_eq` : the transformations are the
  standards' compression functions;
* `hashers_eq_standard` : what the classes return, for any pieces written.
-/
import Hub.ByteCodec
import Hub.HashWriter
import Mathlib.Tactic.IntervalCases

open ByteCodec InPlaceRounds

/-! ## Words in memory -/

/-- `ReadBE32` and `ReadBE64`. -/
def readBE (w : ℕ) (bytes : List UInt8) : BitVec w :=
  BitVec.ofNat w (leNat (bytes.take (w / 8)).reverse)

/-- `ReadLE32`. -/
def readLE (w : ℕ) (bytes : List UInt8) : BitVec w :=
  BitVec.ofNat w (leNat (bytes.take (w / 8)))

/-- `WriteBE32` and `WriteBE64`. -/
def writeBE {w : ℕ} (x : BitVec w) : List UInt8 :=
  (leBytes (w / 8) x.toNat).reverse

/-- `WriteLE32`. -/
def writeLE {w : ℕ} (x : BitVec w) : List UInt8 :=
  leBytes (w / 8) x.toNat

/-- `WriteBE64` of `bytes << 3`. -/
def writeBE64 (x : UInt64) : List UInt8 :=
  (leBytes 8 x.toNat).reverse

/-- `WriteLE64` of `bytes << 3`. -/
def writeLE64 (x : UInt64) : List UInt8 :=
  leBytes 8 x.toNat

/-! ## SHA-2

The namespaces `sha256` and `sha512` of the source differ in the width of a word, in the distances of
their rotations, in the constants and in the number of rounds. -/

structure Sha2 (w : ℕ) where
  Sigma0 : BitVec w → BitVec w
  Sigma1 : BitVec w → BitVec w
  sigma0 : BitVec w → BitVec w
  sigma1 : BitVec w → BitVec w
  /-- The constants, one for a round. -/
  k : List (BitVec w)

namespace Sha2

variable {w : ℕ} (P : Sha2 w)

/-- `Ch`. -/
def Ch (x y z : BitVec w) : BitVec w := z ^^^ (x &&& (y ^^^ z))

/-- `Maj`. -/
def Maj (x y z : BitVec w) : BitVec w := (x &&& y) ||| (z &&& (x ||| y))

/-- `Round`: `d` and `h` are references. -/
def round (k x : BitVec w) (v : Vector (BitVec w) 8) : Vector (BitVec w) 8 :=
  let t1 := v[7] + P.Sigma1 v[4] + Ch v[4] v[5] v[6] + k + x
  let t2 := P.Sigma0 v[0] + Maj v[0] v[1] v[2]
  (v.set 3 (v[3] + t1)).set 7 (t1 + t2)

/-- The word that line `t` stores: the first ones are those of the chunk. -/
def word (chunk : List UInt8) (t : ℕ) (ring : Vector (BitVec w) 16) : BitVec w :=
  if t < 16 then readBE w (chunk.drop (w / 8 * t))
  else ring.get (Fin.ofNat 16 t) + (P.sigma1 (ring.get (Fin.ofNat 16 (t + 14)))
    + ring.get (Fin.ofNat 16 (t + 9)) + P.sigma0 (ring.get (Fin.ofNat 16 (t + 1))))

/-- The words and the variables before line `t`.  `w0` to `w15` hold nothing before they are
assigned. -/
def lines (chunk : List UInt8) (s : Vector (BitVec w) 8) :
    ℕ → Vector (BitVec w) 16 × Vector (BitVec w) 8
  | 0 => (.replicate 16 0, s)
  | t + 1 =>
    let (ring, regs) := lines chunk s t
    let x := P.word chunk t ring
    (ring.set (t % 16) x (Nat.mod_lt t (by decide)), call t (P.round (P.k.getD t 0) x) regs)

/-- `Transform`. -/
def transform (s : Vector (BitVec w) 8) (chunk : List UInt8) : Vector (BitVec w) 8 :=
  Vector.zipWith (· + ·) s (P.lines chunk s P.k.length).2

end Sha2

namespace sha256

/-- `Sigma0`, `Sigma1`, `sigma0`, `sigma1` and the constants of `Transform`. -/
def rounds : Sha2 32 where
  Sigma0 x := (x >>> 2 ||| x <<< 30) ^^^ (x >>> 13 ||| x <<< 19) ^^^ (x >>> 22 ||| x <<< 10)
  Sigma1 x := (x >>> 6 ||| x <<< 26) ^^^ (x >>> 11 ||| x <<< 21) ^^^ (x >>> 25 ||| x <<< 7)
  sigma0 x := (x >>> 7 ||| x <<< 25) ^^^ (x >>> 18 ||| x <<< 14) ^^^ x >>> 3
  sigma1 x := (x >>> 17 ||| x <<< 15) ^^^ (x >>> 19 ||| x <<< 13) ^^^ x >>> 10
  k :=
   [0x428a2f98, 0x71374491, 0xb5c0fbcf, 0xe9b5dba5, 0x3956c25b, 0x59f111f1, 0x923f82a4,
    0xab1c5ed5, 0xd807aa98, 0x12835b01, 0x243185be, 0x550c7dc3, 0x72be5d74, 0x80deb1fe,
    0x9bdc06a7, 0xc19bf174, 0xe49b69c1, 0xefbe4786, 0x0fc19dc6, 0x240ca1cc, 0x2de92c6f,
    0x4a7484aa, 0x5cb0a9dc, 0x76f988da, 0x983e5152, 0xa831c66d, 0xb00327c8, 0xbf597fc7,
    0xc6e00bf3, 0xd5a79147, 0x06ca6351, 0x14292967, 0x27b70a85, 0x2e1b2138, 0x4d2c6dfc,
    0x53380d13, 0x650a7354, 0x766a0abb, 0x81c2c92e, 0x92722c85, 0xa2bfe8a1, 0xa81a664b,
    0xc24b8b70, 0xc76c51a3, 0xd192e819, 0xd6990624, 0xf40e3585, 0x106aa070, 0x19a4c116,
    0x1e376c08, 0x2748774c, 0x34b0bcb5, 0x391c0cb3, 0x4ed8aa4a, 0x5b9cca4f, 0x682e6ff3,
    0x748f82ee, 0x78a5636f, 0x84c87814, 0x8cc70208, 0x90befffa, 0xa4506ceb, 0xbef9a3f7,
    0xc67178f2]

/-- `Initialize`. -/
def initialState : Vector (BitVec 32) 8 :=
  #v[0x6a09e667, 0xbb67ae85, 0x3c6ef372, 0xa54ff53a, 0x510e527f, 0x9b05688c, 0x1f83d9ab, 0x5be0cd19]

end sha256

namespace sha512

/-- `Sigma0`, `Sigma1`, `sigma0`, `sigma1` and the constants of `Transform`. -/
def rounds : Sha2 64 where
  Sigma0 x := (x >>> 28 ||| x <<< 36) ^^^ (x >>> 34 ||| x <<< 30) ^^^ (x >>> 39 ||| x <<< 25)
  Sigma1 x := (x >>> 14 ||| x <<< 50) ^^^ (x >>> 18 ||| x <<< 46) ^^^ (x >>> 41 ||| x <<< 23)
  sigma0 x := (x >>> 1 ||| x <<< 63) ^^^ (x >>> 8 ||| x <<< 56) ^^^ x >>> 7
  sigma1 x := (x >>> 19 ||| x <<< 45) ^^^ (x >>> 61 ||| x <<< 3) ^^^ x >>> 6
  k :=
   [0x428a2f98d728ae22, 0x7137449123ef65cd, 0xb5c0fbcfec4d3b2f, 0xe9b5dba58189dbbc,
    0x3956c25bf348b538, 0x59f111f1b605d019, 0x923f82a4af194f9b, 0xab1c5ed5da6d8118,
    0xd807aa98a3030242, 0x12835b0145706fbe, 0x243185be4ee4b28c, 0x550c7dc3d5ffb4e2,
    0x72be5d74f27b896f, 0x80deb1fe3b1696b1, 0x9bdc06a725c71235, 0xc19bf174cf692694,
    0xe49b69c19ef14ad2, 0xefbe4786384f25e3, 0x0fc19dc68b8cd5b5, 0x240ca1cc77ac9c65,
    0x2de92c6f592b0275, 0x4a7484aa6ea6e483, 0x5cb0a9dcbd41fbd4, 0x76f988da831153b5,
    0x983e5152ee66dfab, 0xa831c66d2db43210, 0xb00327c898fb213f, 0xbf597fc7beef0ee4,
    0xc6e00bf33da88fc2, 0xd5a79147930aa725, 0x06ca6351e003826f, 0x142929670a0e6e70,
    0x27b70a8546d22ffc, 0x2e1b21385c26c926, 0x4d2c6dfc5ac42aed, 0x53380d139d95b3df,
    0x650a73548baf63de, 0x766a0abb3c77b2a8, 0x81c2c92e47edaee6, 0x92722c851482353b,
    0xa2bfe8a14cf10364, 0xa81a664bbc423001, 0xc24b8b70d0f89791, 0xc76c51a30654be30,
    0xd192e819d6ef5218, 0xd69906245565a910, 0xf40e35855771202a, 0x106aa07032bbd1b8,
    0x19a4c116b8d2d0c8, 0x1e376c085141ab53, 0x2748774cdf8eeb99, 0x34b0bcb5e19b48a8,
    0x391c0cb3c5c95a63, 0x4ed8aa4ae3418acb, 0x5b9cca4f7763e373, 0x682e6ff3d6b2b8a3,
    0x748f82ee5defb2fc, 0x78a5636f43172f60, 0x84c87814a1f0ab72, 0x8cc702081a6439ec,
    0x90befffa23631e28, 0xa4506cebde82bde9, 0xbef9a3f7b2c67915, 0xc67178f2e372532b,
    0xca273eceea26619c, 0xd186b8c721c0c207, 0xeada7dd6cde0eb1e, 0xf57d4f7fee6ed178,
    0x06f067aa72176fba, 0x0a637dc5a2c898a6, 0x113f9804bef90dae, 0x1b710b35131c471b,
    0x28db77f523047d84, 0x32caab7b40c72493, 0x3c9ebe0a15c9bebc, 0x431d67c49c100d4c,
    0x4cc5d4becb3e42b6, 0x597f299cfc657e2a, 0x5fcb6fab3ad6faec, 0x6c44198c4a475817]

/-- `Initialize`. -/
def initialState : Vector (BitVec 64) 8 :=
  #v[0x6a09e667f3bcc908, 0xbb67ae8584caa73b, 0x3c6ef372fe94f82b, 0xa54ff53a5f1d36f1,
    0x510e527fade682d1, 0x9b05688c2b3e6c1f, 0x1f83d9abfb41bd6b, 0x5be0cd19137e2179]

end sha512

/-! ## SHA-1 -/

namespace sha1

def f1 (b c d : BitVec 32) : BitVec 32 := d ^^^ (b &&& (c ^^^ d))

def f2 (b c d : BitVec 32) : BitVec 32 := b ^^^ c ^^^ d

def f3 (b c d : BitVec 32) : BitVec 32 := (b &&& c) ||| (d &&& (b ||| c))

def left (x : BitVec 32) : BitVec 32 := x <<< 1 ||| x >>> 31

/-- `Initialize`. -/
def initialState : Vector (BitVec 32) 5 :=
  #v[0x67452301, 0xEFCDAB89, 0x98BADCFE, 0x10325476, 0xC3D2E1F0]

/-- The function of line `t`. -/
def f (t : ℕ) : BitVec 32 → BitVec 32 → BitVec 32 → BitVec 32 :=
  if t < 20 then f1 else if t < 40 then f2 else if t < 60 then f3 else f2

/-- `k1` to `k4`. -/
def k (t : ℕ) : BitVec 32 :=
  if t < 20 then 0x5A827999 else if t < 40 then 0x6ED9EBA1 else if t < 60 then 0x8F1BBCDC
  else 0xCA62C1D6

/-- `Round`, of the value of the line's function: `b` and `e` are references. -/
def round (f k x : BitVec 32) (v : Vector (BitVec 32) 5) : Vector (BitVec 32) 5 :=
  (v.set 4 (v[4] + ((v[0] <<< 5 ||| v[0] >>> 27) + f + k + x))).set 1 (v[1] <<< 30 ||| v[1] >>> 2)

/-- A line calls the function with `b`, `c` and `d`. -/
def line (t : ℕ) (x : BitVec 32) (v : Vector (BitVec 32) 5) : Vector (BitVec 32) 5 :=
  round (f t v[1] v[2] v[3]) (k t) x v

/-- The word that line `t` stores. -/
def word (chunk : List UInt8) (t : ℕ) (ring : Vector (BitVec 32) 16) : BitVec 32 :=
  if t < 16 then readBE 32 (chunk.drop (4 * t))
  else left (ring.get (Fin.ofNat 16 t) ^^^ ring.get (Fin.ofNat 16 (t + 13))
    ^^^ ring.get (Fin.ofNat 16 (t + 8)) ^^^ ring.get (Fin.ofNat 16 (t + 2)))

/-- The words and the variables before line `t`. -/
def lines (chunk : List UInt8) (s : Vector (BitVec 32) 5) :
    ℕ → Vector (BitVec 32) 16 × Vector (BitVec 32) 5
  | 0 => (.replicate 16 0, s)
  | t + 1 =>
    let (ring, regs) := lines chunk s t
    let x := word chunk t ring
    (ring.set (t % 16) x (Nat.mod_lt t (by decide)), call t (line t x) regs)

/-- `Transform`. -/
def transform (s : Vector (BitVec 32) 5) (chunk : List UInt8) : Vector (BitVec 32) 5 :=
  Vector.zipWith (· + ·) s (lines chunk s 80).2

end sha1

/-! ## RIPEMD-160 -/

namespace ripemd160

def f1 (x y z : BitVec 32) : BitVec 32 := x ^^^ y ^^^ z

def f2 (x y z : BitVec 32) : BitVec 32 := (x &&& y) ||| (~~~x &&& z)

def f3 (x y z : BitVec 32) : BitVec 32 := (x ||| ~~~y) ^^^ z

def f4 (x y z : BitVec 32) : BitVec 32 := (x &&& z) ||| (y &&& ~~~z)

def f5 (x y z : BitVec 32) : BitVec 32 := x ^^^ (y ||| ~~~z)

/-- `Initialize`. -/
def initialState : Vector (BitVec 32) 5 :=
  #v[0x67452301, 0xEFCDAB89, 0x98BADCFE, 0x10325476, 0xC3D2E1F0]

def rol (x : BitVec 32) (i : ℕ) : BitVec 32 := x <<< i ||| x >>> (32 - i)

/-- `Round`: `a` and `c` are references. -/
def round (f x k : BitVec 32) (r : ℕ) (v : Vector (BitVec 32) 5) : Vector (BitVec 32) 5 :=
  (v.set 0 (rol (v[0] + f + x + k) r + v[4])).set 2 (rol v[2] 10)

/-- One of the two lines: the functions and constants of its five groups of calls, and for each call
the word of the chunk and the distance of the rotation. -/
structure Line where
  f : ℕ → BitVec 32 → BitVec 32 → BitVec 32 → BitVec 32
  k : ℕ → BitVec 32
  x : List ℕ
  r : List ℕ

/-- `R11`, `R21`, `R31`, `R41` and `R51`, and the calls of them. -/
def line1 : Line where
  f t := [f1, f2, f3, f4, f5].getD (t / 16) f5
  k t := [0, 0x5A827999, 0x6ED9EBA1, 0x8F1BBCDC, 0xA953FD4E].getD (t / 16) 0
  x :=
   [0, 1, 2, 3, 4, 5, 6, 7, 8, 9, 10, 11, 12, 13, 14, 15, 7, 4, 13, 1, 10, 6, 15, 3, 12, 0, 9, 5,
    2, 14, 11, 8, 3, 10, 14, 4, 9, 15, 8, 1, 2, 7, 0, 6, 13, 11, 5, 12, 1, 9, 11, 10, 0, 8, 12, 4,
    13, 3, 7, 15, 14, 5, 6, 2, 4, 0, 5, 9, 7, 12, 2, 10, 14, 1, 3, 8, 11, 6, 15, 13]
  r :=
   [11, 14, 15, 12, 5, 8, 7, 9, 11, 13, 14, 15, 6, 7, 9, 8, 7, 6, 8, 13, 11, 9, 7, 15, 7, 12, 15,
    9, 11, 7, 13, 12, 11, 13, 6, 7, 14, 9, 13, 15, 14, 8, 13, 6, 5, 12, 7, 5, 11, 12, 14, 15, 14,
    15, 9, 8, 9, 14, 5, 6, 8, 6, 5, 12, 9, 15, 5, 11, 6, 8, 13, 12, 5, 12, 13, 14, 11, 8, 5, 6]

/-- `R12`, `R22`, `R32`, `R42` and `R52`, and the calls of them. -/
def line2 : Line where
  f t := [f5, f4, f3, f2, f1].getD (t / 16) f1
  k t := [0x50A28BE6, 0x5C4DD124, 0x6D703EF3, 0x7A6D76E9, 0].getD (t / 16) 0
  x :=
   [5, 14, 7, 0, 9, 2, 11, 4, 13, 6, 15, 8, 1, 10, 3, 12, 6, 11, 3, 7, 0, 13, 5, 10, 14, 15, 8,
    12, 4, 9, 1, 2, 15, 5, 1, 3, 7, 14, 6, 9, 11, 8, 12, 2, 10, 0, 4, 13, 8, 6, 4, 1, 3, 11, 15,
    0, 5, 12, 2, 13, 9, 7, 10, 14, 12, 15, 10, 4, 1, 5, 8, 7, 6, 2, 13, 14, 0, 3, 9, 11]
  r :=
   [8, 9, 9, 11, 13, 15, 15, 5, 7, 7, 8, 11, 14, 14, 12, 6, 9, 13, 15, 7, 12, 8, 9, 11, 7, 7, 12,
    7, 6, 15, 13, 11, 9, 7, 15, 11, 8, 6, 6, 14, 12, 13, 5, 14, 13, 13, 7, 5, 15, 5, 8, 11, 14,
    14, 6, 14, 6, 9, 12, 9, 12, 5, 15, 8, 8, 5, 12, 9, 12, 5, 14, 6, 8, 13, 6, 5, 15, 13, 11, 11]

/-- The words `w0` to `w15`. -/
def word (chunk : List UInt8) (i : ℕ) : BitVec 32 :=
  readLE 32 (chunk.drop (4 * i))

/-- Call `t` of a line. -/
def Line.call (l : Line) (chunk : List UInt8) (t : ℕ) (v : Vector (BitVec 32) 5) :
    Vector (BitVec 32) 5 :=
  round (l.f t v[1] v[2] v[3]) (word chunk (l.x.getD t 0)) (l.k t) (l.r.getD t 0) v

/-- The two lines' variables before call `t`.  The calls of the two lines alternate. -/
def lines (chunk : List UInt8) (s : Vector (BitVec 32) 5) :
    ℕ → Vector (BitVec 32) 5 × Vector (BitVec 32) 5
  | 0 => (s, s)
  | t + 1 =>
    let (v1, v2) := lines chunk s t
    (InPlaceRounds.call t (line1.call chunk t) v1, InPlaceRounds.call t (line2.call chunk t) v2)

/-- The end of `Transform`: the two lines are added to the state, each moved on. -/
def combine (s : Vector (BitVec 32) 5) (v1 v2 : Vector (BitVec 32) 5) : Vector (BitVec 32) 5 :=
  #v[s[1] + v1[2] + v2[3], s[2] + v1[3] + v2[4], s[3] + v1[4] + v2[0], s[4] + v1[0] + v2[1],
    s[0] + v1[1] + v2[2]]

/-- `Transform`. -/
def transform (s : Vector (BitVec 32) 5) (chunk : List UInt8) : Vector (BitVec 32) 5 :=
  combine s (lines chunk s 80).1 (lines chunk s 80).2

end ripemd160

/-! ## The classes -/

theorem length_writeBE64 (x : UInt64) : (writeBE64 x).length = 8 := by
  rw [writeBE64, List.length_reverse, length_leBytes]

theorem length_zeros_writeBE64 (x : UInt64) :
    (List.replicate 8 0 ++ writeBE64 x).length = 16 := by
  rw [List.length_append, List.length_replicate, length_writeBE64]

theorem length_writeLE64 (x : UInt64) : (writeLE64 x).length = 8 :=
  length_leBytes 8 _

theorem dvd_two_pow_64 {n k : ℕ} (h : n * k = 2 ^ 64) : n ∣ 2 ^ 64 :=
  ⟨k, h.symm⟩

/-- `CSHA1`. -/
def sha1Class : HashClass (Vector (BitVec 32) 5) where
  size := 64
  padBase := 119
  sizeBytes := 8
  initialState := sha1.initialState
  transform := sha1.transform
  sizedesc := writeBE64
  writeHash s := s.toList.flatMap writeBE
  size_dvd := dvd_two_pow_64 (k := 2 ^ 58) rfl
  sizeBytes_lt := by decide
  padBase_eq := rfl
  length_sizedesc := length_writeBE64

abbrev CSHA1 := HashWriter sha1Class

/-- `CSHA256`. -/
def sha256Class : HashClass (Vector (BitVec 32) 8) where
  size := 64
  padBase := 119
  sizeBytes := 8
  initialState := sha256.initialState
  transform := sha256.rounds.transform
  sizedesc := writeBE64
  writeHash s := s.toList.flatMap writeBE
  size_dvd := dvd_two_pow_64 (k := 2 ^ 58) rfl
  sizeBytes_lt := by decide
  padBase_eq := rfl
  length_sizedesc := length_writeBE64

abbrev CSHA256 := HashWriter sha256Class

/-- `CSHA512`.  The length stands in the last eight of its sixteen bytes. -/
def sha512Class : HashClass (Vector (BitVec 64) 8) where
  size := 128
  padBase := 239
  sizeBytes := 16
  initialState := sha512.initialState
  transform := sha512.rounds.transform
  sizedesc x := List.replicate 8 0 ++ writeBE64 x
  writeHash s := s.toList.flatMap writeBE
  size_dvd := dvd_two_pow_64 (k := 2 ^ 57) rfl
  sizeBytes_lt := by decide
  padBase_eq := rfl
  length_sizedesc := length_zeros_writeBE64

abbrev CSHA512 := HashWriter sha512Class

/-- `CRIPEMD160`. -/
def ripemd160Class : HashClass (Vector (BitVec 32) 5) where
  size := 64
  padBase := 119
  sizeBytes := 8
  initialState := ripemd160.initialState
  transform := ripemd160.transform
  sizedesc := writeLE64
  writeHash s := s.toList.flatMap writeLE
  size_dvd := dvd_two_pow_64 (k := 2 ^ 58) rfl
  sizeBytes_lt := by decide
  padBase_eq := rfl
  length_sizedesc := length_writeLE64

abbrev CRIPEMD160 := HashWriter ripemd160Class

/-! ## The standards

The standards write a round down as an assignment to every variable, the message schedule as a
recurrence, and the padding with the length of the message in bits. -/

namespace Standard

variable {w : ℕ}

def ch (x y z : BitVec w) : BitVec w := (x &&& y) ^^^ (~~~x &&& z)

def maj (x y z : BitVec w) : BitVec w := (x &&& y) ^^^ (x &&& z) ^^^ (y &&& z)

def parity (x y z : BitVec w) : BitVec w := x ^^^ y ^^^ z

/-- The functions of SHA-256, with the constants of the source. -/
def sha256Functions : Sha2 32 where
  Sigma0 x := x.rotateRight 2 ^^^ x.rotateRight 13 ^^^ x.rotateRight 22
  Sigma1 x := x.rotateRight 6 ^^^ x.rotateRight 11 ^^^ x.rotateRight 25
  sigma0 x := x.rotateRight 7 ^^^ x.rotateRight 18 ^^^ x >>> 3
  sigma1 x := x.rotateRight 17 ^^^ x.rotateRight 19 ^^^ x >>> 10
  k := sha256.rounds.k

/-- The functions of SHA-512, with the constants of the source. -/
def sha512Functions : Sha2 64 where
  Sigma0 x := x.rotateRight 28 ^^^ x.rotateRight 34 ^^^ x.rotateRight 39
  Sigma1 x := x.rotateRight 14 ^^^ x.rotateRight 18 ^^^ x.rotateRight 41
  sigma0 x := x.rotateRight 1 ^^^ x.rotateRight 8 ^^^ x >>> 7
  sigma1 x := x.rotateRight 19 ^^^ x.rotateRight 61 ^^^ x >>> 6
  k := sha512.rounds.k

/-- The message schedule of SHA-2. -/
def sha2Word (P : Sha2 w) (chunk : List UInt8) (t : ℕ) : BitVec w :=
  if _h : t < 16 then readBE w (chunk.drop (w / 8 * t))
  else P.sigma1 (sha2Word P chunk (t - 2)) + sha2Word P chunk (t - 7)
    + P.sigma0 (sha2Word P chunk (t - 15)) + sha2Word P chunk (t - 16)
termination_by t
decreasing_by all_goals omega

/-- A round of SHA-2. -/
def sha2Round (P : Sha2 w) (k x : BitVec w) (v : Vector (BitVec w) 8) : Vector (BitVec w) 8 :=
  let t1 := v[7] + P.Sigma1 v[4] + ch v[4] v[5] v[6] + k + x
  let t2 := P.Sigma0 v[0] + maj v[0] v[1] v[2]
  #v[t1 + t2, v[0], v[1], v[2], v[3] + t1, v[4], v[5], v[6]]

/-- The variables before round `t`. -/
def sha2Rounds (P : Sha2 w) (chunk : List UInt8) (s : Vector (BitVec w) 8) :
    ℕ → Vector (BitVec w) 8
  | 0 => s
  | t + 1 => sha2Round P (P.k.getD t 0) (sha2Word P chunk t) (sha2Rounds P chunk s t)

/-- The compression function of SHA-2. -/
def sha2Compress (P : Sha2 w) (s : Vector (BitVec w) 8) (chunk : List UInt8) :
    Vector (BitVec w) 8 :=
  Vector.zipWith (· + ·) s (sha2Rounds P chunk s P.k.length)

/-- The message schedule of SHA-1. -/
def sha1Word (chunk : List UInt8) (t : ℕ) : BitVec 32 :=
  if _h : t < 16 then readBE 32 (chunk.drop (4 * t))
  else (sha1Word chunk (t - 3) ^^^ sha1Word chunk (t - 8) ^^^ sha1Word chunk (t - 14)
    ^^^ sha1Word chunk (t - 16)).rotateLeft 1
termination_by t
decreasing_by all_goals omega

/-- The function of round `t`. -/
def sha1Function (t : ℕ) : BitVec 32 → BitVec 32 → BitVec 32 → BitVec 32 :=
  if t < 20 then ch else if t < 40 then parity else if t < 60 then maj else parity

/-- A round of SHA-1. -/
def sha1Round (t : ℕ) (x : BitVec 32) (v : Vector (BitVec 32) 5) : Vector (BitVec 32) 5 :=
  #v[v[0].rotateLeft 5 + sha1Function t v[1] v[2] v[3] + v[4] + sha1.k t + x, v[0],
    v[1].rotateLeft 30, v[2], v[3]]

/-- The variables before round `t`. -/
def sha1Rounds (chunk : List UInt8) (s : Vector (BitVec 32) 5) : ℕ → Vector (BitVec 32) 5
  | 0 => s
  | t + 1 => sha1Round t (sha1Word chunk t) (sha1Rounds chunk s t)

/-- The compression function of SHA-1. -/
def sha1Compress (s : Vector (BitVec 32) 5) (chunk : List UInt8) : Vector (BitVec 32) 5 :=
  Vector.zipWith (· + ·) s (sha1Rounds chunk s 80)

/-- A round of one of the lines of RIPEMD-160. -/
def ripemd160Round (l : ripemd160.Line) (chunk : List UInt8) (t : ℕ) (v : Vector (BitVec 32) 5) :
    Vector (BitVec 32) 5 :=
  let x := readLE 32 (chunk.drop (4 * l.x.getD t 0))
  #v[v[4], (v[0] + l.f t v[1] v[2] v[3] + x + l.k t).rotateLeft (l.r.getD t 0) + v[4], v[1],
    v[2].rotateLeft 10, v[3]]

/-- The variables of a line before round `t`. -/
def ripemd160Rounds (l : ripemd160.Line) (chunk : List UInt8) (s : Vector (BitVec 32) 5) :
    ℕ → Vector (BitVec 32) 5
  | 0 => s
  | t + 1 => ripemd160Round l chunk t (ripemd160Rounds l chunk s t)

/-- The order of the words, which every group of sixteen rounds applies once more. -/
def rho (i : ℕ) : ℕ := [7, 4, 13, 1, 10, 6, 15, 3, 12, 0, 9, 5, 2, 14, 11, 8].getD i 0

/-- The first order of the second line. -/
def pi (i : ℕ) : ℕ := (9 * i + 5) % 16

/-- The distance by which a group rotates at a word. -/
def distance (group i : ℕ) : ℕ :=
  ([[11, 14, 15, 12, 5, 8, 7, 9, 11, 13, 14, 15, 6, 7, 9, 8],
    [12, 13, 11, 15, 6, 9, 9, 7, 12, 15, 11, 13, 7, 8, 7, 7],
    [13, 15, 14, 11, 7, 7, 6, 8, 13, 14, 13, 12, 5, 5, 6, 9],
    [14, 11, 12, 14, 8, 6, 5, 5, 15, 12, 15, 14, 9, 9, 8, 6],
    [15, 12, 13, 13, 9, 5, 8, 6, 14, 11, 12, 11, 8, 6, 5, 5]].getD group []).getD i 0

/-- A line of the standard: the words in an order, with the distances that they have. -/
def ripemd160Line (l : ripemd160.Line) (order : ℕ → ℕ) : ripemd160.Line where
  f := l.f
  k := l.k
  x := (List.range 80).map fun t => rho^[t / 16] (order (t % 16))
  r := (List.range 80).map fun t => distance (t / 16) (rho^[t / 16] (order (t % 16)))

/-- The compression function of RIPEMD-160. -/
def ripemd160Compress (s : Vector (BitVec 32) 5) (chunk : List UInt8) : Vector (BitVec 32) 5 :=
  ripemd160.combine s (ripemd160Rounds (ripemd160Line ripemd160.line1 id) chunk s 80)
    (ripemd160Rounds (ripemd160Line ripemd160.line2 pi) chunk s 80)

theorem length_bitLength (k n : ℕ) : (leBytes k n).reverse.length = k := by
  rw [List.length_reverse, length_leBytes]

/-- SHA-1. -/
def SHA1 : BlockHash (Vector (BitVec 32) 5) where
  blockSize := 64
  sizeBytes := 8
  init := sha1.initialState
  transform := sha1Compress
  sizeDesc n := (leBytes 8 (8 * n)).reverse
  sizeBytes_lt := by decide
  length_sizeDesc n := length_bitLength 8 (8 * n)

/-- SHA-256. -/
def SHA256 : BlockHash (Vector (BitVec 32) 8) where
  blockSize := 64
  sizeBytes := 8
  init := sha256.initialState
  transform := sha2Compress sha256Functions
  sizeDesc n := (leBytes 8 (8 * n)).reverse
  sizeBytes_lt := by decide
  length_sizeDesc n := length_bitLength 8 (8 * n)

/-- SHA-512. -/
def SHA512 : BlockHash (Vector (BitVec 64) 8) where
  blockSize := 128
  sizeBytes := 16
  init := sha512.initialState
  transform := sha2Compress sha512Functions
  sizeDesc n := (leBytes 16 (8 * n)).reverse
  sizeBytes_lt := by decide
  length_sizeDesc n := length_bitLength 16 (8 * n)

/-- RIPEMD-160. -/
def RIPEMD160 : BlockHash (Vector (BitVec 32) 5) where
  blockSize := 64
  sizeBytes := 8
  init := ripemd160.initialState
  transform := ripemd160Compress
  sizeDesc n := leBytes 8 (8 * n)
  sizeBytes_lt := by decide
  length_sizeDesc n := length_leBytes 8 (8 * n)

/-! ## Rounds -/

theorem ch_eq : Sha2.Ch (w := w) = ch := by
  funext x y z
  refine BitVec.eq_of_getElem_eq fun i hi => ?_
  simp only [Sha2.Ch, ch, BitVec.getElem_xor, BitVec.getElem_and, BitVec.getElem_not]
  cases x[i] <;> cases y[i] <;> cases z[i] <;> rfl

theorem maj_eq : Sha2.Maj (w := w) = maj := by
  funext x y z
  refine BitVec.eq_of_getElem_eq fun i hi => ?_
  simp only [Sha2.Maj, maj, BitVec.getElem_xor, BitVec.getElem_and, BitVec.getElem_or]
  cases x[i] <;> cases y[i] <;> cases z[i] <;> rfl

/-- A round in place leaves in its parameters what the next one calls the variables. -/
theorem shift_sha2 (P : Sha2 w) (k x : BitVec w) (v : Vector (BitVec w) 8) :
    shift (P.round k x v) = sha2Round P k x v := by
  refine Vector.ext fun j hj => ?_
  have hlt : (j + 7) % 8 < 8 := Nat.mod_lt _ (by decide)
  rw [getElem_shift _ hj hlt rfl, Sha2.round, sha2Round, ch_eq, maj_eq]
  interval_cases j <;> simp

theorem sha1Function_eq (t : ℕ) : sha1.f t = sha1Function t := by
  have hch : sha1.f1 = ch := ch_eq
  have hmaj : sha1.f3 = maj := maj_eq
  rw [sha1.f, sha1Function, hch, hmaj]
  rfl

theorem shift_sha1 (t : ℕ) (x : BitVec 32) (v : Vector (BitVec 32) 5) :
    shift (sha1.line t x v) = sha1Round t x v := by
  have hleft (y : BitVec 32) : y <<< 5 ||| y >>> 27 = y.rotateLeft 5 := rfl
  have hleft' (y : BitVec 32) : y <<< 30 ||| y >>> 2 = y.rotateLeft 30 := rfl
  refine Vector.ext fun j hj => ?_
  have hlt : (j + 4) % 5 < 5 := Nat.mod_lt _ (by decide)
  rw [getElem_shift _ hj hlt rfl, sha1.line, sha1.round, sha1Round, hleft, hleft', sha1Function_eq]
  interval_cases j
  · simp
    ac_rfl
  all_goals simp

theorem rol_eq {x : BitVec 32} {i : ℕ} (hi : i < 32) : ripemd160.rol x i = x.rotateLeft i := by
  rw [BitVec.rotateLeft, Nat.mod_eq_of_lt hi]
  rfl

theorem shift_ripemd160 (l : ripemd160.Line) (chunk : List UInt8) (t : ℕ) (v : Vector (BitVec 32) 5)
    (hr : l.r.getD t 0 < 32) : shift (l.call chunk t v) = ripemd160Round l chunk t v := by
  refine Vector.ext fun j hj => ?_
  have hlt : (j + 4) % 5 < 5 := Nat.mod_lt _ (by decide)
  rw [getElem_shift _ hj hlt rfl, ripemd160.Line.call, ripemd160.round, ripemd160Round, rol_eq hr,
    rol_eq (by decide), ripemd160.word]
  interval_cases j <;> simp

/-! ## Lines -/

/-- Every word that a line of SHA-2 stores is that of the schedule. -/
theorem sha2Word_eq {P : Sha2 w} {chunk : List UInt8} {t : ℕ} {ring : Vector (BitVec w) 16}
    (h : RingHolds (sha2Word P chunk) t ring) : P.word chunk t ring = sha2Word P chunk t := by
  rw [Sha2.word, sha2Word]
  by_cases ht : t < 16
  · rw [if_pos ht, dif_pos ht]
  · have h16 := h.get_add (i := t - 16) (by omega) (by omega)
    have h15 := h.get_add (i := t - 15) (by omega) (by omega)
    have h7 := h.get_add (i := t - 7) (by omega) (by omega)
    have h2 := h.get_add (i := t - 2) (by omega) (by omega)
    rw [show t - 16 + 16 = t by omega] at h16
    rw [show t - 15 + 16 = t + 1 by omega] at h15
    rw [show t - 7 + 16 = t + 9 by omega] at h7
    rw [show t - 2 + 16 = t + 14 by omega] at h2
    rw [if_neg ht, dif_neg ht, h16, h15, h7, h2]
    ac_rfl

/-- The lines of SHA-2: the ring holds the last words, and the variables have gone through the
rounds. -/
theorem sha2Lines_eq (P : Sha2 w) (chunk : List UInt8) (s : Vector (BitVec w) 8) (t : ℕ) :
    RingHolds (sha2Word P chunk) t (P.lines chunk s t).1 ∧
      arguments t (P.lines chunk s t).2 = sha2Rounds P chunk s t := by
  induction t with
  | zero => exact ⟨ringHolds_zero _ _, arguments_of_dvd (Nat.dvd_zero 8) s⟩
  | succ t ih =>
    obtain ⟨hring, hregs⟩ := ih
    have hword := sha2Word_eq hring
    constructor
    · rw [Sha2.lines]
      simp only [hword]
      exact hring.set
    · rw [Sha2.lines, sha2Rounds]
      simp only [hword]
      rw [arguments_call, hregs, shift_sha2]

/-- **The transformation of SHA-2.** -/
theorem sha2Transform_eq (P : Sha2 w) (hlen : 8 ∣ P.k.length) : P.transform = sha2Compress P := by
  funext s chunk
  rw [Sha2.transform, sha2Compress, ← (sha2Lines_eq P chunk s P.k.length).2, arguments_of_dvd hlen]

theorem sha1Word_eq {chunk : List UInt8} {t : ℕ} {ring : Vector (BitVec 32) 16}
    (h : RingHolds (sha1Word chunk) t ring) : sha1.word chunk t ring = sha1Word chunk t := by
  have hleft (y : BitVec 32) : sha1.left y = y.rotateLeft 1 := rfl
  rw [sha1.word, sha1Word]
  by_cases ht : t < 16
  · rw [if_pos ht, dif_pos ht]
  · have h16 := h.get_add (i := t - 16) (by omega) (by omega)
    have h14 := h.get_add (i := t - 14) (by omega) (by omega)
    have h8 := h.get_add (i := t - 8) (by omega) (by omega)
    have h3 := h.get_add (i := t - 3) (by omega) (by omega)
    rw [show t - 16 + 16 = t by omega] at h16
    rw [show t - 14 + 16 = t + 2 by omega] at h14
    rw [show t - 8 + 16 = t + 8 by omega] at h8
    rw [show t - 3 + 16 = t + 13 by omega] at h3
    rw [if_neg ht, dif_neg ht, h16, h14, h8, h3, hleft]
    congr 1
    ac_rfl

theorem sha1Lines_eq (chunk : List UInt8) (s : Vector (BitVec 32) 5) (t : ℕ) :
    RingHolds (sha1Word chunk) t (sha1.lines chunk s t).1 ∧
      arguments t (sha1.lines chunk s t).2 = sha1Rounds chunk s t := by
  induction t with
  | zero => exact ⟨ringHolds_zero _ _, arguments_of_dvd (Nat.dvd_zero 5) s⟩
  | succ t ih =>
    obtain ⟨hring, hregs⟩ := ih
    have hword := sha1Word_eq hring
    constructor
    · rw [sha1.lines]
      simp only [hword]
      exact hring.set
    · rw [sha1.lines, sha1Rounds]
      simp only [hword]
      rw [arguments_call, hregs, shift_sha1]

/-- **The transformation of SHA-1.** -/
theorem sha1Transform_eq : sha1.transform = sha1Compress := by
  funext s chunk
  have hdvd : 5 ∣ 80 := ⟨16, rfl⟩
  rw [sha1.transform, sha1Compress, ← (sha1Lines_eq chunk s 80).2, arguments_of_dvd hdvd]

/-- The tables of the source are those of the standard. -/
theorem ripemd160Line1_eq : ripemd160Line ripemd160.line1 id = ripemd160.line1 := by
  have hx : (ripemd160Line ripemd160.line1 id).x = ripemd160.line1.x := by decide
  have hr : (ripemd160Line ripemd160.line1 id).r = ripemd160.line1.r := by decide
  exact congrArg₂ (ripemd160.Line.mk ripemd160.line1.f ripemd160.line1.k) hx hr

theorem ripemd160Line2_eq : ripemd160Line ripemd160.line2 pi = ripemd160.line2 := by
  have hx : (ripemd160Line ripemd160.line2 pi).x = ripemd160.line2.x := by decide
  have hr : (ripemd160Line ripemd160.line2 pi).r = ripemd160.line2.r := by decide
  exact congrArg₂ (ripemd160.Line.mk ripemd160.line2.f ripemd160.line2.k) hx hr

theorem getD_lt {l : List ℕ} {n : ℕ} (h : ∀ x ∈ l, x < n) (hn : 0 < n) (t : ℕ) :
    l.getD t 0 < n := by
  rw [List.getD_eq_getElem?_getD]
  cases ht : l[t]? with
  | none => exact hn
  | some x => exact h x (List.mem_of_getElem? ht)

theorem ripemd160Lines_eq (chunk : List UInt8) (s : Vector (BitVec 32) 5) (t : ℕ) :
    arguments t (ripemd160.lines chunk s t).1 = ripemd160Rounds ripemd160.line1 chunk s t ∧
      arguments t (ripemd160.lines chunk s t).2 = ripemd160Rounds ripemd160.line2 chunk s t := by
  induction t with
  | zero => exact ⟨arguments_of_dvd (Nat.dvd_zero 5) s, arguments_of_dvd (Nat.dvd_zero 5) s⟩
  | succ t ih =>
    obtain ⟨h1, h2⟩ := ih
    constructor
    · rw [ripemd160.lines, ripemd160Rounds, arguments_call, h1,
        shift_ripemd160 _ _ _ _ (getD_lt (by decide) (by decide) t)]
    · rw [ripemd160.lines, ripemd160Rounds, arguments_call, h2,
        shift_ripemd160 _ _ _ _ (getD_lt (by decide) (by decide) t)]

/-- **The transformation of RIPEMD-160.** -/
theorem ripemd160Transform_eq : ripemd160.transform = ripemd160Compress := by
  funext s chunk
  have hdvd : 5 ∣ 80 := ⟨16, rfl⟩
  obtain ⟨h1, h2⟩ := ripemd160Lines_eq chunk s 80
  rw [arguments_of_dvd hdvd] at h1 h2
  rw [ripemd160.transform, ripemd160Compress, ripemd160Line1_eq, ripemd160Line2_eq, h1, h2]

/-! ## Messages

A message whose length in bits fits the field of the standard; the source counts bytes in 64
bits. -/

theorem toNat_bits {n : ℕ} (h : n < 2 ^ 61) : (UInt64.ofNat (8 * n)).toNat = 8 * n := by
  rw [UInt64.toNat_ofNat']
  omega

/-- The length takes sixteen bytes, of which the source writes the first eight as zeros. -/
theorem leBytes_add_of_lt {j n : ℕ} (h : n < 256 ^ j) (k : ℕ) :
    leBytes (j + k) n = leBytes j n ++ List.replicate k 0 := by
  induction j generalizing n with
  | zero =>
    rw [pow_zero, Nat.lt_one_iff] at h
    subst h
    rw [Nat.zero_add, leBytes, List.nil_append]
    induction k with
    | zero => rfl
    | succ k ih =>
      rw [leBytes, Nat.zero_div, ih, List.replicate_succ]
      rfl
  | succ j ih =>
    have hdiv : n / 256 < 256 ^ j := by
      rw [Nat.div_lt_iff_lt_mul (by decide), ← pow_succ]
      exact h
    rw [Nat.succ_add, leBytes, leBytes, ih hdiv, List.cons_append]

/-- The class has the blocks and the compression of the standard, and states the length of a message
as it does. -/
structure Computes {σ : Type} (C : HashClass σ) (H : BlockHash σ) : Prop where
  blockSize : C.size = H.blockSize
  sizeBytes : C.sizeBytes = H.sizeBytes
  init : C.initialState = H.init
  transform : C.transform = H.transform
  sizeDesc : ∀ n < 2 ^ 61, C.plain.sizeDesc n = H.sizeDesc n

theorem Computes.hash {σ : Type} {C : HashClass σ} {H : BlockHash σ} (h : Computes C H)
    {m : List UInt8} (hm : m.length < 2 ^ 61) : C.hash m = C.writeHash (H.digest m) :=
  congrArg C.writeHash (BlockHash.digest_congr C.plain H h.blockSize h.sizeBytes h.init h.transform
    (h.sizeDesc m.length hm))

theorem computes_sha1 : Computes sha1Class SHA1 where
  blockSize := rfl
  sizeBytes := rfl
  init := rfl
  transform := sha1Transform_eq
  sizeDesc n h := by simp only [HashClass.plain, sha1Class, SHA1, writeBE64, toNat_bits h]

theorem computes_sha256 : Computes sha256Class SHA256 where
  blockSize := rfl
  sizeBytes := rfl
  init := rfl
  transform := sha2Transform_eq sha256.rounds ⟨8, rfl⟩
  sizeDesc n h := by simp only [HashClass.plain, sha256Class, SHA256, writeBE64, toNat_bits h]

theorem computes_sha512 : Computes sha512Class SHA512 where
  blockSize := rfl
  sizeBytes := rfl
  init := rfl
  transform := sha2Transform_eq sha512.rounds ⟨10, rfl⟩
  sizeDesc n h := by
    have hsmall : 8 * n < 256 ^ 8 := by omega
    simp only [HashClass.plain, sha512Class, SHA512, writeBE64, toNat_bits h]
    rw [leBytes_add_of_lt hsmall 8, List.reverse_append, List.reverse_replicate]

theorem computes_ripemd160 : Computes ripemd160Class RIPEMD160 where
  blockSize := rfl
  sizeBytes := rfl
  init := rfl
  transform := ripemd160Transform_eq
  sizeDesc n h := by simp only [HashClass.plain, ripemd160Class, RIPEMD160, writeLE64, toNat_bits h]

/-- What a hasher returns for the pieces that are written behind `Reset`. -/
theorem Computes.finalize_pieces {σ : Type} {C : HashClass σ} {H : BlockHash σ} (h : Computes C H)
    {pieces : List (List UInt8)} (hm : pieces.flatten.length < 2 ^ 61) (w : HashWriter C) :
    (pieces.foldl HashWriter.write w.reset).finalize.1 = C.writeHash (H.digest pieces.flatten) :=
  (HashWriter.finalize_pieces w pieces).trans (h.hash hm)

/-- **The hashers.**  Whatever a hasher was used for before, what it returns for the pieces that are
written behind `Reset` is the standard's hash of all of them together. -/
theorem hashers_eq_standard {pieces : List (List UInt8)} (h : pieces.flatten.length < 2 ^ 61) :
    (∀ sha : CSHA1, (pieces.foldl HashWriter.write sha.reset).finalize.1
      = (SHA1.digest pieces.flatten).toList.flatMap writeBE) ∧
    (∀ sha : CSHA256, (pieces.foldl HashWriter.write sha.reset).finalize.1
      = (SHA256.digest pieces.flatten).toList.flatMap writeBE) ∧
    (∀ sha : CSHA512, (pieces.foldl HashWriter.write sha.reset).finalize.1
      = (SHA512.digest pieces.flatten).toList.flatMap writeBE) ∧
    ∀ ripemd : CRIPEMD160, (pieces.foldl HashWriter.write ripemd.reset).finalize.1
      = (RIPEMD160.digest pieces.flatten).toList.flatMap writeLE := by
  exact ⟨computes_sha1.finalize_pieces h, computes_sha256.finalize_pieces h,
    computes_sha512.finalize_pieces h, computes_ripemd160.finalize_pieces h⟩

/-- Pieces that fill blocks of both sizes, the first one more than one. -/
def fourPieces : List (List UInt8) :=
  [List.replicate 200 0x61, [], [0x62, 0x63], List.replicate 60 0x64]

theorem length_fourPieces : fourPieces.flatten.length = 262 := by decide +kernel

/-- The four hashers, each of which has been given something before. -/
theorem hashers_eq_standard_fourPieces :
    (fourPieces.foldl HashWriter.write
      ((HashWriter.new (Vector.replicate 64 0) : CSHA1).write [1]).reset).finalize.1
      = (SHA1.digest fourPieces.flatten).toList.flatMap writeBE ∧
    (fourPieces.foldl HashWriter.write
      ((HashWriter.new (Vector.replicate 64 7) : CSHA256).write [1, 2]).reset).finalize.1
      = (SHA256.digest fourPieces.flatten).toList.flatMap writeBE ∧
    (fourPieces.foldl HashWriter.write
      ((HashWriter.new (Vector.replicate 128 0) : CSHA512).write [1, 2, 3]).reset).finalize.1
      = (SHA512.digest fourPieces.flatten).toList.flatMap writeBE ∧
    (fourPieces.foldl HashWriter.write
      ((HashWriter.new (Vector.replicate 64 0) : CRIPEMD160).write [1]).finalize.2.reset).finalize.1
      = (RIPEMD160.digest fourPieces.flatten).toList.flatMap writeLE := by
  have hlength : fourPieces.flatten.length < 2 ^ 61 := by
    rw [length_fourPieces]
    decide
  exact ⟨(hashers_eq_standard hlength).1 _, (hashers_eq_standard hlength).2.1 _,
    (hashers_eq_standard hlength).2.2.1 _, (hashers_eq_standard hlength).2.2.2 _⟩

end Standard
