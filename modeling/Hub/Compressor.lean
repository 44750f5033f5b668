/-
# Compressed outputs

`CTxOutCompressor` and `CScriptCompressor` (`libs/server/compressor.h`, `compressor.cpp`): the form
in which outputs are stored in the database of coins.  An amount drops its zeros at the end, and a
script of one of the common kinds is a number below six and the hash or the key in it.

Of a public key with 65 bytes only the first coordinate and the parity of the second are stored,
so that it takes `CPubKey::Decompress` to read it back.  The curve is not part of this;
`FullyValidIffDecompressed` says what is used of it.
-/
import Hub.Script
import Hub.Serialization
import Hub.VarInt

open ByteCodec Serialization VarInt

/-! ## Amounts -/

namespace CTxOutCompressor

/-- The loop over the zeros at the end of the number, with the rounds that are left: what remains,
and how many zeros there were. -/
def stripZeros : ℕ → ℕ → ℕ × ℕ
  | 0, n => (n, 0)
  | rounds + 1, n =>
      if n % 10 = 0 then
        let (m, e) := stripZeros rounds (n / 10)
        (m, e + 1)
      else (n, 0)

/-- `CTxOutCompressor::CompressAmount`. -/
def compressAmount (n : ℕ) : ℕ :=
  if n = 0 then 0
  else
    let (n, e) := stripZeros 9 n
    if e < 9 then (1 + (n / 10 * 9 + n % 10 - 1) * 10 + e) % 2 ^ 64
    else (1 + (n - 1) * 10 + 9) % 2 ^ 64

/-- `CTxOutCompressor::DecompressAmount`. -/
def decompressAmount (x : ℕ) : ℕ :=
  if x = 0 then 0
  else
    let x := x - 1
    let e := x % 10
    let x := x / 10
    let n := if e < 9 then x / 9 * 10 + (x % 9 + 1) else x + 1
    n * 10 ^ e % 2 ^ 64

theorem stripZeros_spec : ∀ (rounds n : ℕ), 0 < n → ∃ m e, stripZeros rounds n = (m, e) ∧
    n = m * 10 ^ e ∧ 0 < m ∧ e ≤ rounds ∧ (e < rounds → m % 10 ≠ 0) := by
  intro rounds
  induction rounds with
  | zero =>
    intro n hn
    exact ⟨n, 0, rfl, by rw [pow_zero, Nat.mul_one], hn, le_rfl, fun h => absurd h (by omega)⟩
  | succ rounds ih =>
    intro n hn
    rw [stripZeros]
    by_cases hzero : n % 10 = 0
    · obtain ⟨m, e, hrun, hval, hm, he, hlast⟩ := ih (n / 10) (by omega)
      rw [if_pos hzero, hrun]
      refine ⟨m, e + 1, rfl, ?_, hm, by omega, fun h => hlast (by omega)⟩
      rw [pow_succ, ← Nat.mul_assoc, ← hval]
      omega
    · rw [if_neg hzero]
      exact ⟨n, 0, rfl, by rw [pow_zero, Nat.mul_one], hn, Nat.zero_le _, fun _ => hzero⟩

/-- **Amounts come back**, as long as nothing overflows. -/
theorem decompressAmount_compressAmount {n : ℕ} (hn : n ≤ 2 ^ 60) :
    decompressAmount (compressAmount n) = n := by
  by_cases hzero : n = 0
  · subst hzero
    rfl
  obtain ⟨m, e, hrun, hval, hm, he, hlast⟩ := stripZeros_spec 9 n (by omega)
  have hmn : m ≤ n := by
    rw [hval]
    exact Nat.le_mul_of_pos_right m (Nat.pow_pos (by decide))
  rw [compressAmount, if_neg hzero, hrun]
  simp only
  by_cases hlt : e < 9
  · -- the last digit is stored apart
    have hdigit := hlast hlt
    rw [if_pos hlt, Nat.mod_eq_of_lt (by omega), decompressAmount, if_neg (by omega)]
    have he' : (1 + (m / 10 * 9 + m % 10 - 1) * 10 + e - 1) % 10 = e := by omega
    have hq : (1 + (m / 10 * 9 + m % 10 - 1) * 10 + e - 1) / 10 = m / 10 * 9 + m % 10 - 1 := by
      omega
    have hback : (m / 10 * 9 + m % 10 - 1) / 9 * 10 + ((m / 10 * 9 + m % 10 - 1) % 9 + 1) = m := by
      omega
    simp only [he', hq, if_pos hlt, hback, ← hval]
    exact Nat.mod_eq_of_lt (by omega)
  · obtain rfl : e = 9 := by omega
    rw [if_neg hlt, Nat.mod_eq_of_lt (by omega), decompressAmount, if_neg (by omega)]
    have he' : (1 + (m - 1) * 10 + 9 - 1) % 10 = 9 := by omega
    have hq : (1 + (m - 1) * 10 + 9 - 1) / 10 + 1 = m := by omega
    simp only [he', hq, lt_irrefl, if_false, ← hval]
    exact Nat.mod_eq_of_lt (by omega)

end CTxOutCompressor

/-! ## Scripts -/

/-- What is used of the curve: `CPubKey::IsFullyValid` and `CPubKey::Decompress`, which has no
result for a key that is not on the curve. -/
structure Curve where
  isFullyValid : List UInt8 → Bool
  decompress : List UInt8 → Option (List UInt8)

/-- The compressed form of a key of 65 bytes, with its coordinates `x` and `y`. -/
def compressedKey (x y : List UInt8) : List UInt8 :=
  UInt8.ofNat (2 + (y.getLastD 0).toNat % 2) :: x

/-- A key of 65 bytes is fully valid exactly if it is what its compressed form is the short form
of. -/
def FullyValidIffDecompressed (curve : Curve) : Prop :=
  ∀ x y : List UInt8, x.length = 32 → y.length = 32 →
    (curve.isFullyValid (4 :: (x ++ y)) = true ↔
      curve.decompress (compressedKey x y) = some (4 :: (x ++ y)))

namespace CScriptCompressor

open Opcode

/-- `nSpecialScripts`. -/
def nSpecialScripts : ℕ := 6

/-- `CScriptCompressor::IsToKeyID`. -/
def isToKeyID (script : List UInt8) : Option (List UInt8) :=
  if script.length = 25 ∧ script.take 3 = [opDup, opHash160, 20] ∧
      script.drop 23 = [opEqualVerify, opCheckSig] then
    some ((script.drop 3).take 20)
  else none

/-- `CScriptCompressor::IsToScriptID`. -/
def isToScriptID (script : List UInt8) : Option (List UInt8) :=
  if script.length = 23 ∧ script.take 2 = [opHash160, 20] ∧ script.drop 22 = [opEqual] then
    some ((script.drop 2).take 20)
  else none

variable (curve : Curve)

/-- `CScriptCompressor::IsToPubKey`. -/
def isToPubKey (script : List UInt8) : Option (List UInt8) :=
  if script.length = 35 ∧ script.head? = some 33 ∧ script.drop 34 = [opCheckSig] ∧
      (script[1]? = some 0x02 ∨ script[1]? = some 0x03) then
    some ((script.drop 1).take 33)
  else if script.length = 67 ∧ script.head? = some 65 ∧ script.drop 66 = [opCheckSig] ∧
      script[1]? = some 0x04 then
    let pubkey := (script.drop 1).take 65
    -- if not fully valid, a case that would not be compressible
    if curve.isFullyValid pubkey then some pubkey else none
  else none

/-- `CScriptCompressor::Compress`. -/
def compress (script : List UInt8) : Option (List UInt8) :=
  match isToKeyID script with
  | some keyID => some (0x00 :: keyID)
  | none =>
      match isToScriptID script with
      | some scriptID => some (0x01 :: scriptID)
      | none =>
          match isToPubKey curve script with
          | some pubkey =>
              if pubkey.head? = some 0x02 ∨ pubkey.head? = some 0x03 then
                some (pubkey.headD 0 :: (pubkey.drop 1).take 32)
              else if pubkey.head? = some 0x04 then
                some (UInt8.ofNat (0x04 + (pubkey.getD 64 0).toNat % 2) :: (pubkey.drop 1).take 32)
              else none
          | none => none

/-- `CScriptCompressor::GetSpecialSize`. -/
def getSpecialSize (nSize : ℕ) : ℕ :=
  if nSize = 0 ∨ nSize = 1 then 20
  else if nSize = 2 ∨ nSize = 3 ∨ nSize = 4 ∨ nSize = 5 then 32
  else 0

/-- `CScriptCompressor::Decompress`; `none` is its `return false`. -/
def decompress (nSize : ℕ) (input : List UInt8) : Option (List UInt8) :=
  if nSize = 0 then some ([opDup, opHash160, 20] ++ (input ++ [opEqualVerify, opCheckSig]))
  else if nSize = 1 then some ([opHash160, 20] ++ (input ++ [opEqual]))
  else if nSize = 2 ∨ nSize = 3 then
    some ([33, UInt8.ofNat nSize] ++ (input ++ [opCheckSig]))
  else if nSize = 4 ∨ nSize = 5 then
    (curve.decompress (UInt8.ofNat (nSize - 2) :: input)).map fun pubkey =>
      [65] ++ (pubkey ++ [opCheckSig])
  else none

/-- `CScriptCompressor::Serialize`. -/
def serialize (script : List UInt8) : List UInt8 :=
  match compress curve script with
  | some compr => compr
  | none => writeVarInt (script.length + nSpecialScripts) ++ script

/-- `CScriptCompressor::GetSerializeSize`. -/
def getSerializeSize (script : List UInt8) : ℕ :=
  match compress curve script with
  | some compr => compr.length
  | none => script.length + getSizeOfVarInt (script.length + nSpecialScripts)

/-- `CScriptCompressor::Unserialize`, into an empty script. -/
def unserialize : Reader String (List UInt8) := do
  let nSize ← readVarInt "CDataStream::read(): end of data"
  if nSize < nSpecialScripts then
    let vch ← readBytes (getSpecialSize nSize)
    pure ((decompress curve nSize vch).getD [])
  else readBytes (nSize - nSpecialScripts)

variable {curve} {script key : List UInt8}

/-! ### The special scripts -/

/-- A list in three parts. -/
theorem take_append_take_drop (l : List UInt8) (i k : ℕ) :
    l.take i ++ ((l.drop i).take k ++ l.drop (i + k)) = l := by
  rw [← List.drop_drop, List.take_append_drop, List.take_append_drop]

theorem isToKeyID_spec (h : isToKeyID script = some key) :
    key.length = 20 ∧ [opDup, opHash160, 20] ++ (key ++ [opEqualVerify, opCheckSig]) = script := by
  rw [isToKeyID] at h
  split at h
  · next hscript =>
    obtain ⟨hlen, hfront, hback⟩ := hscript
    obtain rfl := Option.some.inj h
    refine ⟨by simp [hlen], ?_⟩
    rw [← hfront, ← hback]
    exact take_append_take_drop script 3 20
  · cases h

theorem isToScriptID_spec (h : isToScriptID script = some key) :
    key.length = 20 ∧ [opHash160, 20] ++ (key ++ [opEqual]) = script := by
  rw [isToScriptID] at h
  split at h
  · next hscript =>
    obtain ⟨hlen, hfront, hback⟩ := hscript
    obtain rfl := Option.some.inj h
    refine ⟨by simp [hlen], ?_⟩
    rw [← hfront, ← hback]
    exact take_append_take_drop script 2 20
  · cases h

/-- A public key in a script is behind its length. -/
theorem isToPubKey_spec (h : isToPubKey curve script = some key) :
    (∃ c x, (c = 0x02 ∨ c = 0x03) ∧ x.length = 32 ∧ key = c :: x ∧
        script = [33, c] ++ (x ++ [opCheckSig])) ∨
      ∃ x y, x.length = 32 ∧ y.length = 32 ∧ key = 0x04 :: (x ++ y) ∧
        script = [65] ++ (key ++ [opCheckSig]) ∧ curve.isFullyValid key = true := by
  rw [isToPubKey] at h
  split at h
  · next hscript =>
    obtain ⟨hlen, hfront, hback, hc⟩ := hscript
    obtain rfl := Option.some.inj h
    match script, hlen, hfront, hback, hc with
    | a :: c :: x, hlen, hfront, hback, hc =>
      obtain rfl : a = 33 := Option.some.inj hfront
      have hc' : c = 0x02 ∨ c = 0x03 := hc.imp Option.some.inj Option.some.inj
      simp only [List.length_cons] at hlen
      refine .inl ⟨c, x.take 32, hc', by simp; omega, rfl, ?_⟩
      rw [← hback]
      exact (take_append_take_drop (33 :: c :: x) 2 32).symm
  · split at h
    · next hscript =>
      obtain ⟨hlen, hfront, hback, hc⟩ := hscript
      match script, hlen, hfront, hback, hc with
      | a :: c :: z, hlen, hfront, hback, hc =>
        obtain rfl : a = 65 := Option.some.inj hfront
        obtain rfl : c = 0x04 := Option.some.inj hc
        simp only [List.length_cons] at hlen
        dsimp only at h
        split at h
        · next hvalid =>
          obtain rfl := Option.some.inj h
          refine .inr ⟨z.take 32, (z.drop 32).take 32, by simp; omega, by simp; omega, ?_, ?_,
            hvalid⟩
          · rw [← List.take_add]
            rfl
          · rw [← hback]
            exact (take_append_take_drop (65 :: 4 :: z) 1 65).symm
        · cases h
    · cases h

/-- **A special script** is a number below six and what `Decompress` makes the script of. -/
theorem compress_spec (hcurve : FullyValidIffDecompressed curve) {compr : List UInt8}
    (h : compress curve script = some compr) :
    ∃ nSize vch, nSize < nSpecialScripts ∧ compr = UInt8.ofNat nSize :: vch ∧
      vch.length = getSpecialSize nSize ∧ decompress curve nSize vch = some script := by
  rw [compress] at h
  cases hkey : isToKeyID script with
  | some keyID =>
    rw [hkey] at h
    obtain rfl := Option.some.inj h
    obtain ⟨hlen, hscript⟩ := isToKeyID_spec hkey
    exact ⟨0, keyID, by decide, rfl, hlen, congrArg some hscript⟩
  | none =>
  cases hid : isToScriptID script with
  | some scriptID =>
    rw [hkey, hid] at h
    obtain rfl := Option.some.inj h
    obtain ⟨hlen, hscript⟩ := isToScriptID_spec hid
    exact ⟨1, scriptID, by decide, rfl, hlen, congrArg some hscript⟩
  | none =>
  cases hpub : isToPubKey curve script with
  | none =>
    rw [hkey, hid, hpub] at h
    cases h
  | some pubkey =>
    rw [hkey, hid, hpub] at h
    simp only at h
    rcases isToPubKey_spec hpub with ⟨c, x, hc, hx, rfl, rfl⟩ | ⟨x, y, hx, hy, rfl, rfl, hvalid⟩
    · -- the first byte of the key is the number
      have hhead : (c :: x).head? = some 0x02 ∨ (c :: x).head? = some 0x03 := by
        rcases hc with rfl | rfl
        · exact .inl rfl
        · exact .inr rfl
      rw [if_pos hhead] at h
      obtain rfl := Option.some.inj h
      have htake : ((c :: x).drop 1).take 32 = x := by
        rw [List.drop_one, List.tail_cons, ← hx, List.take_length]
      rcases hc with rfl | rfl
      · exact ⟨2, x, by decide, by rw [htake]; rfl, hx, rfl⟩
      · exact ⟨3, x, by decide, by rw [htake]; rfl, hx, rfl⟩
    · have hparity : (0x04 :: (x ++ y)).getD 64 0 = y.getLastD 0 := by
        rw [List.getLastD_eq_getLast?, List.getLast?_eq_getElem?, hy, List.getD_eq_getElem?_getD,
          List.getElem?_cons_succ, List.getElem?_append_right (by omega), hx]
      have htake : ((0x04 :: (x ++ y)).drop 1).take 32 = x := by
        rw [List.drop_one, List.tail_cons, ← hx, List.take_left]
      rw [if_neg (by simp), if_pos (by rfl), htake, hparity] at h
      obtain rfl := Option.some.inj h
      have hback := (hcurve x y hx hy).mp hvalid
      rw [compressedKey] at hback
      rcases Nat.mod_two_eq_zero_or_one (y.getLastD 0).toNat with hp | hp
      · rw [hp] at hback ⊢
        refine ⟨4, x, by decide, rfl, hx, ?_⟩
        rw [decompress, if_neg (by omega), if_neg (by omega), if_neg (by omega),
          if_pos (by omega), hback]
        rfl
      · rw [hp] at hback ⊢
        refine ⟨5, x, by decide, rfl, hx, ?_⟩
        rw [decompress, if_neg (by omega), if_neg (by omega), if_neg (by omega),
          if_pos (by omega), hback]
        rfl

theorem writeVarInt_of_le {n : ℕ} (h : n ≤ 127) : writeVarInt n = [UInt8.ofNat n] := by
  rw [writeVarInt, writeLoop, if_pos rfl, if_pos h, Nat.add_zero, Nat.mod_eq_of_lt (by omega)]

/-- **Scripts come back.** -/
theorem reads_unserialize (hcurve : FullyValidIffDecompressed curve) (script : List UInt8) :
    Reads (unserialize curve) (serialize curve script) script := by
  rw [serialize]
  cases hcompr : compress curve script with
  | some compr =>
    obtain ⟨nSize, vch, hlt, rfl, hlen, hback⟩ := compress_spec hcurve hcompr
    have hfirst : Reads (readVarInt "CDataStream::read(): end of data") (writeVarInt nSize) nSize :=
      reads_readVarInt nSize
    rw [writeVarInt_of_le (by rw [nSpecialScripts] at hlt; omega)] at hfirst
    refine hfirst.bind ?_
    rw [if_pos hlt, ← hlen]
    refine (reads_readBytes vch).map ?_
    rw [hback]
    rfl
  | none =>
    refine (reads_readVarInt _).bind ?_
    rw [if_neg (by omega), Nat.add_sub_cancel]
    exact reads_readBytes script

theorem length_serialize (curve : Curve) (script : List UInt8) :
    (serialize curve script).length = getSerializeSize curve script := by
  rw [serialize, getSerializeSize]
  cases compress curve script with
  | some compr => rfl
  | none =>
    simp only
    rw [List.length_append, length_writeVarInt, Nat.add_comm]

end CScriptCompressor
