/-
# Variable-length integers

Numbers in base 128, most significant digit first.  All bytes but the last have their high bit
set, and one is subtracted from all digits but the last, so that every number has one
encoding only.

`reads_readVarInt` says that the reader takes exactly the bytes that the writer wrote, and
`length_writeVarInt` that these are as many as `getSizeOfVarInt` counts.
-/
import Hub.ByteCodec

namespace VarInt

open ByteCodec

/-- The loop of the writer: the digits of `n` in front of `out`, least significant digit first;
the first argument bounds the rounds. -/
def writeLoop : ℕ → ℕ → List UInt8 → List UInt8
  | 0, _, out => out
  | fuel + 1, n, out =>
      let out' := UInt8.ofNat (n % 128 + if out = [] then 0 else 128) :: out
      if n ≤ 127 then out' else writeLoop fuel (n / 128 - 1) out'

/-- `WriteVarInt`. -/
def writeVarInt (n : ℕ) : List UInt8 := writeLoop (n + 1) n []

def sizeLoop : ℕ → ℕ → ℕ
  | 0, _ => 0
  | fuel + 1, n => if n ≤ 127 then 1 else sizeLoop fuel (n / 128 - 1) + 1

/-- `GetSizeOfVarInt`. -/
def getSizeOfVarInt (n : ℕ) : ℕ := sizeLoop (n + 1) n

variable {ε : Type} (endOfData : ε)

/-- The loop of the reader, with the number so far. -/
def readLoop : ℕ → Reader ε ℕ
  | _, [] => .error endOfData
  | n, chData :: s =>
      let n' := n * 128 + chData.toNat % 128
      if 128 ≤ chData.toNat then readLoop (n' + 1) s else .ok (n', s)

/-- `ReadVarInt`, of a number that fits. -/
def readVarInt : Reader ε ℕ := readLoop endOfData 0

variable {endOfData}

theorem length_writeLoop : ∀ (fuel n : ℕ) (out : List UInt8),
    (writeLoop fuel n out).length = sizeLoop fuel n + out.length := by
  intro fuel
  induction fuel with
  | zero =>
    intro n out
    rw [writeLoop, sizeLoop, Nat.zero_add]
  | succ fuel ih =>
    intro n out
    rw [writeLoop, sizeLoop]
    split
    · rw [List.length_cons, Nat.add_comm]
    · rw [ih, List.length_cons]
      omega

theorem length_writeVarInt (n : ℕ) : (writeVarInt n).length = getSizeOfVarInt n :=
  length_writeLoop (n + 1) n []

theorem toNat_digit (n : ℕ) {high : ℕ} (h : high = 0 ∨ high = 128) :
    (UInt8.ofNat (n % 128 + high)).toNat = n % 128 + high := by
  rw [UInt8.toNat_ofNat']
  omega

/-- A digit with the high bit continues the number. -/
theorem readLoop_more (m n : ℕ) (s : List UInt8) :
    readLoop endOfData m (UInt8.ofNat (n % 128 + 128) :: s)
      = readLoop endOfData (m * 128 + n % 128 + 1) s := by
  rw [readLoop, toNat_digit n (.inr rfl), if_pos (by omega), Nat.add_mod_right, Nat.mod_mod]

/-- A digit without it ends the number. -/
theorem readLoop_last (m n : ℕ) (s : List UInt8) :
    readLoop endOfData m (UInt8.ofNat (n % 128 + 0) :: s) = .ok (m * 128 + n % 128, s) := by
  rw [readLoop, toNat_digit n (.inl rfl), if_neg (by omega), Nat.add_zero, Nat.mod_mod]

/-- The digits in front of other digits. -/
theorem readLoop_writeLoop : ∀ (fuel n : ℕ) (out rest : List UInt8), n < fuel → out ≠ [] →
    readLoop endOfData 0 (writeLoop fuel n out ++ rest)
      = readLoop endOfData (n + 1) (out ++ rest) := by
  intro fuel
  induction fuel with
  | zero =>
    intro n out rest h
    omega
  | succ fuel ih =>
    intro n out rest h hout
    rw [writeLoop, if_neg hout]
    split
    · rw [List.cons_append, readLoop_more]
      congr 1
      omega
    · rw [ih _ _ _ (by omega) (by simp), List.cons_append, readLoop_more]
      congr 1
      omega

/-- **The reader meets the writer.** -/
theorem reads_readVarInt (n : ℕ) : Reads (readVarInt endOfData) (writeVarInt n) n := by
  intro rest
  rw [readVarInt, writeVarInt, writeLoop, if_pos rfl]
  split
  · rw [List.cons_append, readLoop_last, List.nil_append]
    congr 2
    omega
  · rw [readLoop_writeLoop _ _ _ _ (by omega) (by simp), List.cons_append, readLoop_last,
      List.nil_append]
    congr 2
    omega

example : writeVarInt (2 ^ 32) = [0x8E, 0xFE, 0xFE, 0xFF, 0x00] := by decide

end VarInt
