/-
# Hashing by blocks

A hash takes a message in blocks of a fixed length, one after the other, and keeps a state between
two blocks.  What is left behind the last full block is closed with a bit, as few zeros as make the
blocks full, and the length of the message; the state behind the last block is the digest.

## Main results

* `absorb_append` : the blocks of one message behind those of another;
* `padding_full` : the padding fills the last block.
-/
import Mathlib.Algebra.Order.Ring.Nat
import Mathlib.Data.List.Basic
import Mathlib.Tactic.Common

/-- A hash: the length of a block and of the field that states the message's length, the state
before the first block, and what a block does to it. -/
structure BlockHash (σ : Type) where
  blockSize : ℕ
  sizeBytes : ℕ
  init : σ
  transform : σ → List UInt8 → σ
  /-- The field for a message of so many bytes. -/
  sizeDesc : ℕ → List UInt8
  sizeBytes_lt : sizeBytes < blockSize
  length_sizeDesc : ∀ n, (sizeDesc n).length = sizeBytes

namespace BlockHash

variable {σ : Type} (H : BlockHash σ)

theorem blockSize_pos : 0 < H.blockSize :=
  Nat.lt_of_le_of_lt (Nat.zero_le _) H.sizeBytes_lt

/-- `n` blocks from the front of the data. -/
def absorb : ℕ → σ → List UInt8 → σ
  | 0, s, _ => s
  | n + 1, s, data => absorb n (H.transform s (data.take H.blockSize)) (data.drop H.blockSize)

/-- The zeros between the closing bit of a message of `n` bytes and its length. -/
def zeros (n : ℕ) : ℕ :=
  (2 * H.blockSize - H.sizeBytes - 1 - n % H.blockSize) % H.blockSize

/-- What stands behind a message of `n` bytes. -/
def padding (n : ℕ) : List UInt8 :=
  0x80 :: (List.replicate (H.zeros n) 0 ++ H.sizeDesc n)

/-- The state behind a message and its padding. -/
def digest (m : List UInt8) : σ :=
  H.absorb ((m ++ H.padding m.length).length / H.blockSize) H.init (m ++ H.padding m.length)

variable {H}

/-! ## Blocks -/

/-- Only the blocks taken matter. -/
theorem absorb_take_append {n : ℕ} {s : σ} {a : List UInt8} (rest : List UInt8)
    (h : n * H.blockSize ≤ a.length) : H.absorb n s (a ++ rest) = H.absorb n s a := by
  induction n generalizing s a with
  | zero => rfl
  | succ n ih =>
    rw [Nat.succ_mul] at h
    have hfirst : H.blockSize ≤ a.length := by omega
    rw [absorb, absorb, List.take_append_of_le_length hfirst, List.drop_append_of_le_length hfirst]
    refine ih ?_
    rw [List.length_drop]
    omega

/-- Blocks one after the other. -/
theorem absorb_add (k n : ℕ) (s : σ) (data : List UInt8) :
    H.absorb (k + n) s data = H.absorb n (H.absorb k s data) (data.drop (k * H.blockSize)) := by
  induction k generalizing s data with
  | zero => rw [Nat.zero_add, Nat.zero_mul, List.drop_zero, absorb]
  | succ k ih =>
    rw [Nat.succ_add, absorb, ih, absorb, List.drop_drop, Nat.succ_mul, Nat.add_comm H.blockSize]

/-- **The blocks of one message behind those of another**, if the first one ends with a full block.
-/
theorem absorb_append {k n : ℕ} {s : σ} {a : List UInt8} (ha : a.length = k * H.blockSize)
    (b : List UInt8) : H.absorb (k + n) s (a ++ b) = H.absorb n (H.absorb k s a) b := by
  rw [absorb_add, absorb_take_append b (Nat.le_of_eq ha.symm), ← ha, List.drop_left]

theorem absorb_one (s : σ) {a : List UInt8} (ha : a.length = H.blockSize) :
    H.absorb 1 s a = H.transform s a := by
  rw [absorb, absorb, List.take_of_length_le (Nat.le_of_eq ha)]

theorem absorb_congr {H' : BlockHash σ} (hsize : H.blockSize = H'.blockSize)
    (htransform : H.transform = H'.transform) (n : ℕ) (s : σ) (data : List UInt8) :
    H.absorb n s data = H'.absorb n s data := by
  induction n generalizing s data with
  | zero => rfl
  | succ n ih => rw [absorb, absorb, hsize, htransform, ih]

/-! ## Padding -/

@[simp] theorem length_padding (n : ℕ) :
    (H.padding n).length = 1 + H.zeros n + H.sizeBytes := by
  rw [padding, List.length_cons, List.length_append, List.length_replicate, H.length_sizeDesc]
  omega

/-- The padding fills the last block. -/
theorem padding_full (n : ℕ) : (n + (H.padding n).length) % H.blockSize = 0 := by
  have hlt := H.sizeBytes_lt
  have hmod := Nat.mod_lt n H.blockSize_pos
  have hsum : n % H.blockSize + 1 + H.sizeBytes
      + (2 * H.blockSize - H.sizeBytes - 1 - n % H.blockSize) = 2 * H.blockSize := by omega
  rw [length_padding, zeros, ← Nat.mod_add_mod, ← Nat.add_assoc, ← Nat.add_assoc,
    Nat.add_assoc _ _ H.sizeBytes, Nat.add_comm _ H.sizeBytes, ← Nat.add_assoc, Nat.add_mod_mod,
    hsum]
  exact Nat.mul_mod_left 2 H.blockSize

/-! ## Digests -/

variable (H)

/-- The state behind the full blocks of a message. -/
def full (m : List UInt8) : σ :=
  H.absorb (m.length / H.blockSize) H.init m

/-- What is left over. -/
def rest (m : List UInt8) : List UInt8 :=
  m.drop (m.length / H.blockSize * H.blockSize)

variable {H}

theorem length_rest (m : List UInt8) : (H.rest m).length = m.length % H.blockSize := by
  have hdiv := Nat.div_add_mod m.length H.blockSize
  rw [rest, List.length_drop, Nat.mul_comm]
  omega

@[simp] theorem full_nil : H.full [] = H.init := by
  rw [full, List.length_nil, Nat.zero_div, absorb]

@[simp] theorem rest_nil : H.rest [] = [] :=
  List.drop_nil

/-- How many blocks there are, with more data behind a message. -/
theorem blocks_append (m data : List UInt8) :
    (m ++ data).length / H.blockSize
      = m.length / H.blockSize + (H.rest m ++ data).length / H.blockSize := by
  rw [List.length_append, List.length_append, length_rest]
  conv_lhs => rw [← Nat.div_add_mod m.length H.blockSize, Nat.add_assoc]
  exact Nat.mul_add_div H.blockSize_pos _ _

/-- More data behind a message: its blocks begin with what was left over. -/
theorem full_append (m data : List UInt8) :
    H.full (m ++ data)
      = H.absorb ((H.rest m ++ data).length / H.blockSize) (H.full m) (H.rest m ++ data) := by
  have htake : (m.take (m.length / H.blockSize * H.blockSize)).length
      = m.length / H.blockSize * H.blockSize := by
    rw [List.length_take]
    exact Nat.min_eq_left (Nat.div_mul_le_self _ _)
  have hfull : H.full m = H.absorb (m.length / H.blockSize) H.init
      (m.take (m.length / H.blockSize * H.blockSize)) := by
    have h := absorb_take_append (H := H) (s := H.init)
      (m.drop (m.length / H.blockSize * H.blockSize)) (Nat.le_of_eq htake.symm)
    rw [List.take_append_drop] at h
    exact h
  rw [full, blocks_append, hfull, ← absorb_append htake, rest, ← List.append_assoc,
    List.take_append_drop]

theorem rest_append (m data : List UInt8) :
    H.rest (m ++ data) = (H.rest m ++ data).drop
      ((H.rest m ++ data).length / H.blockSize * H.blockSize) := by
  rw [rest, blocks_append, Nat.add_mul, ← List.drop_drop,
    List.drop_append_of_le_length (Nat.div_mul_le_self _ _), ← rest]

/-- Two hashes that state the length of a message alike. -/
theorem digest_congr (H H' : BlockHash σ) (hsize : H.blockSize = H'.blockSize)
    (hbytes : H.sizeBytes = H'.sizeBytes) (hinit : H.init = H'.init)
    (htransform : H.transform = H'.transform) {m : List UInt8}
    (hdesc : H.sizeDesc m.length = H'.sizeDesc m.length) : H.digest m = H'.digest m := by
  have hpadding : H.padding m.length = H'.padding m.length := by
    rw [padding, padding, zeros, zeros, hsize, hbytes, hdesc]
  rw [digest, digest, hpadding, hsize, hinit]
  exact absorb_congr hsize htransform _ _ _

end BlockHash
