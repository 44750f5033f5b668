/-
# The message builder

`Streaming::MessageBuilder` (`libs/utils/streaming/MessageBuilder.cpp`) writes a
message as a sequence of fields.  A field is a type and tag, in one byte or in a
longer form for tags from 31 on, followed by its value; numbers and lengths are
written by `serialize` in bijective base 128, most significant digit first.

`MessageField.wire` collects the bytes of one field.  The builder's `add` functions all
come down to putting these bytes at the end of the pool (`add_spec`).
-/
import Hub.BijectiveBase
import Hub.BufferPool
import Mathlib.Data.List.GetD

namespace Streaming

/-! ## Variable-length integers -/

/-- `ValueType` (`MessageBuilder_p.h`). -/
inductive ValueType where
  | positiveNumber
  | negativeNumber
  | string
  | byteArray
  | boolTrue
  | boolFalse
  | double
  deriving DecidableEq, Repr

/-- The three-bit code of a value type. -/
def ValueType.code : ValueType → UInt8
  | .positiveNumber => 0
  | .negativeNumber => 1
  | .string => 2
  | .byteArray => 3
  | .boolTrue => 4
  | .boolFalse => 5
  | .double => 6

/-- The first loop of `serialize`: `data[pos]`, `data[pos + 1]`, … for `value`,
least significant digit first.  The first argument bounds the rounds; a `uint64`
takes at most ten. -/
def serializeLoop : ℕ → ℕ → UInt64 → List UInt8
  | 0, _, _ => []
  | fuel + 1, pos, value =>
      let byte := (value &&& 0x7F).toUInt8 ||| (if pos = 0 then 0x00 else 0x80)
      if value ≤ 0x7F then [byte]
      else byte :: serializeLoop fuel (pos + 1) ((value >>> 7) - 1)

/-- `data` with the bytes at `i` and `j` exchanged. -/
def swapBytes (data : List UInt8) (i j : ℕ) : List UInt8 :=
  (data.set i (data.getD j 0)).set j (data.getD i 0)

/-- The second loop of `serialize`: exchange `data[i]` and `data[pos - i]` for `i`
down to `0`. -/
def reverseLoop (pos : ℕ) : ℕ → List UInt8 → List UInt8
  | 0, data => swapBytes data 0 pos
  | i + 1, data => reverseLoop pos i (swapBytes data (i + 1) (pos - (i + 1)))

/-- `serialize`: the bytes it leaves at `data`. -/
def serialize (value : UInt64) : List UInt8 :=
  let data := serializeLoop 10 0 value
  let pos := data.length - 1
  reverseLoop pos (pos / 2) data

/-- `write`: the type and tag that open a field. -/
def writeTag (tag : UInt32) (type : ValueType) : List UInt8 :=
  if tag ≥ 31 then
    (type.code ||| 0xF8) :: serialize tag.toUInt64
  else
    [(tag.toUInt8 <<< 3) + type.code]

/-! ### What the loops leave -/

theorem toNat_and_7F (value : UInt64) : ((value &&& 0x7F).toUInt8).toNat = value.toNat % 128 := by
  have hmask : (0x7F : UInt64).toNat = 2 ^ 7 - 1 := rfl
  rw [UInt64.toNat_toUInt8, UInt64.toNat_and, hmask, Nat.and_two_pow_sub_one_eq_mod]
  omega

theorem toNat_or_80 {b : UInt8} (h : b.toNat < 128) : (b ||| 0x80).toNat = b.toNat + 128 := by
  have hbit : (0x80 : UInt8).toNat = 2 ^ 7 * 1 := rfl
  rw [UInt8.toNat_or, hbit, Nat.or_comm, ← Nat.two_pow_add_eq_or_of_lt h]
  omega

/-- The carry of one round, when there is one. -/
theorem toNat_carry {value : UInt64} (h : 128 ≤ value.toNat) :
    ((value >>> 7) - 1).toNat = value.toNat / 128 - 1 := by
  have hshift : (value >>> 7).toNat = value.toNat / 128 := by
    rw [UInt64.toNat_shiftRight]
    simp [Nat.shiftRight_eq_div_pow]
  have hone : (1 : UInt64) ≤ value >>> 7 := by
    rw [UInt64.le_iff_toNat_le, hshift]
    show 1 ≤ value.toNat / 128
    omega
  rw [UInt64.toNat_sub_of_le _ _ hone, hshift]
  rfl

/-- A digit as the loop stores it: plain in the first place, with the high bit set
in all later places. -/
def digitByte (pos d : ℕ) : UInt8 := if pos = 0 then UInt8.ofNat d else UInt8.ofNat (d + 128)

theorem byte_eq_digitByte (pos : ℕ) (value : UInt64) :
    (value &&& 0x7F).toUInt8 ||| (if pos = 0 then 0x00 else 0x80)
      = digitByte pos (value.toNat % 128) := by
  apply UInt8.toNat_inj.mp
  unfold digitByte
  by_cases h : pos = 0
  · rw [if_pos h, if_pos h, UInt8.toNat_or, toNat_and_7F, UInt8.toNat_ofNat']
    simp
    omega
  · rw [if_neg h, if_neg h, toNat_or_80 (by rw [toNat_and_7F]; omega), toNat_and_7F,
      UInt8.toNat_ofNat']
    omega

/-- **The first loop writes the bijective base-128 numeral.** -/
theorem serializeLoop_eq (fuel : ℕ) : ∀ (pos : ℕ) (value : UInt64),
    value.toNat < 128 ^ (fuel + 1) →
    serializeLoop (fuel + 1) pos value
      = (BijectiveBase.digits 128 value.toNat).mapIdx (fun i d => digitByte (pos + i) d) := by
  induction fuel with
  | zero =>
    intro pos value hlt
    have hle : value ≤ 0x7F := by
      rw [UInt64.le_iff_toNat_le]
      show value.toNat ≤ 127
      omega
    rw [BijectiveBase.digits_of_lt (by simpa using hlt), serializeLoop]
    simp only [hle, if_true, byte_eq_digitByte]
    rw [Nat.mod_eq_of_lt (by simpa using hlt)]
    rfl
  | succ fuel ih =>
    intro pos value hlt
    rw [serializeLoop]
    simp only [byte_eq_digitByte]
    by_cases hsmall : value.toNat < 128
    · have hle : value ≤ 0x7F := by
        rw [UInt64.le_iff_toNat_le]
        show value.toNat ≤ 127
        omega
      rw [BijectiveBase.digits_of_lt hsmall, if_pos hle, Nat.mod_eq_of_lt hsmall]
      rfl
    · push Not at hsmall
      have hgt : ¬ value ≤ 0x7F := by
        rw [UInt64.le_iff_toNat_le]
        show ¬ value.toNat ≤ 127
        omega
      have hcarry := toNat_carry hsmall
      have hdiv : value.toNat / 128 < 128 ^ (fuel + 1) := by
        rw [Nat.div_lt_iff_lt_mul (by omega), ← pow_succ]
        exact hlt
      rw [if_neg hgt, BijectiveBase.digits_of_le (by omega) hsmall,
        ih (pos + 1) _ (by rw [hcarry]; exact lt_of_le_of_lt (Nat.sub_le _ _) hdiv), hcarry,
        List.mapIdx_cons]
      congr 1
      apply congrArg (fun f => List.mapIdx f _)
      funext i d
      rw [show pos + 1 + i = pos + (i + 1) from by omega]

theorem length_swapBytes (data : List UInt8) (i j : ℕ) :
    (swapBytes data i j).length = data.length := by
  simp [swapBytes]

/-- Where the bytes are after an exchange. -/
theorem getElem?_swapBytes {data : List UInt8} {i j : ℕ} (hi : i < data.length)
    (hj : j < data.length) (k : ℕ) :
    (swapBytes data i j)[k]? =
      if k = j then data[i]? else if k = i then data[j]? else data[k]? := by
  rw [swapBytes, List.getElem?_set, List.getElem?_set]
  simp only [List.length_set, hi, hj, if_true]
  by_cases hkj : k = j
  · rw [if_pos hkj.symm, if_pos hkj, List.getD_eq_getElem _ _ hi, List.getElem?_eq_getElem hi]
  · rw [if_neg (fun h => hkj h.symm), if_neg hkj]
    by_cases hki : k = i
    · rw [if_pos hki.symm, if_pos hki, List.getD_eq_getElem _ _ hj, List.getElem?_eq_getElem hj]
    · rw [if_neg (fun h => hki h.symm), if_neg hki]

/-- The exchanges from `i` down to `0` turn around the outer `i + 1` places on each
side and leave the middle alone. -/
theorem getElem?_reverseLoop (pos : ℕ) : ∀ (i : ℕ) (data : List UInt8),
    data.length = pos + 1 → i ≤ pos / 2 → ∀ k ≤ pos,
    (reverseLoop pos i data)[k]? = if k ≤ i ∨ pos - i ≤ k then data[pos - k]? else data[k]? := by
  intro i
  induction i with
  | zero =>
    intro data hlen _ k hk
    rw [reverseLoop, getElem?_swapBytes (by omega) (by omega)]
    by_cases hlast : k = pos
    · rw [if_pos hlast, if_pos (by omega), hlast, Nat.sub_self]
    · rw [if_neg hlast]
      by_cases hfirst : k = 0
      · rw [if_pos hfirst, if_pos (by omega), hfirst, Nat.sub_zero]
      · rw [if_neg hfirst, if_neg (by omega)]
  | succ i ih =>
    intro data hlen hi k hk
    rw [reverseLoop, ih _ (by rw [length_swapBytes]; exact hlen) (by omega) k hk]
    by_cases hout : k ≤ i ∨ pos - i ≤ k
    · -- an outer place: the exchange at `i + 1` did not touch its mirror image
      rw [if_pos hout, if_pos (by omega), getElem?_swapBytes (by omega) (by omega),
        if_neg (by omega), if_neg (by omega)]
    · rw [if_neg hout, getElem?_swapBytes (by omega) (by omega)]
      by_cases hr : k = pos - (i + 1)
      · rw [if_pos hr, if_pos (by omega), hr]
        congr 1
        omega
      · rw [if_neg hr]
        by_cases hl : k = i + 1
        · rw [if_pos hl, if_pos (by omega), hl]
        · rw [if_neg hl, if_neg (by omega)]

theorem length_reverseLoop (pos : ℕ) : ∀ (i : ℕ) (data : List UInt8),
    (reverseLoop pos i data).length = data.length := by
  intro i
  induction i with
  | zero =>
    intro data
    rw [reverseLoop, length_swapBytes]
  | succ i ih =>
    intro data
    rw [reverseLoop, ih, length_swapBytes]

/-- **The second loop reverses.** -/
theorem reverseLoop_eq_reverse {pos : ℕ} {data : List UInt8} (hlen : data.length = pos + 1) :
    reverseLoop pos (pos / 2) data = data.reverse := by
  apply List.ext_getElem?
  intro k
  by_cases hk : k ≤ pos
  · rw [getElem?_reverseLoop pos (pos / 2) data hlen le_rfl k hk, if_pos (by omega),
      List.getElem?_reverse (by omega), hlen]
    congr 1
  · rw [List.getElem?_eq_none (by rw [length_reverseLoop]; omega),
      List.getElem?_eq_none (by rw [List.length_reverse]; omega)]

/-- `serialize` writes the numeral of `value + 1`, most significant digit first,
with the high bit set on every byte but the last. -/
theorem serialize_eq (value : UInt64) :
    serialize value
      = ((BijectiveBase.digits 128 value.toNat).mapIdx (fun i d => digitByte i d)).reverse := by
  have hlt : value.toNat < 128 ^ (9 + 1) := lt_trans value.toNat_lt (by decide)
  have hloop := serializeLoop_eq 9 0 value hlt
  simp only [Nat.zero_add] at hloop
  have hne : (BijectiveBase.digits 128 value.toNat).length ≠ 0 := by
    intro h
    exact BijectiveBase.digits_ne_nil 128 value.toNat (List.length_eq_zero_iff.mp h)
  rw [serialize, hloop]
  apply reverseLoop_eq_reverse
  rw [List.length_mapIdx]
  omega

/-! ## Fields -/

/-- The eight bytes of a `double`. -/
structure DoubleBits where
  bytes : List UInt8
  length_eq : bytes.length = 8
  deriving DecidableEq

/-- The values that `MessageBuilder::add` is overloaded on. -/
inductive FieldValue where
  | uint64 (value : UInt64)
  | int32 (value : Int32)
  | bool (value : Bool)
  | double (value : DoubleBits)
  | string (value : List UInt8)
  | bytes (value : List UInt8)
  deriving DecidableEq

/-- One call of `MessageBuilder::add`. -/
structure MessageField where
  tag : UInt32
  value : FieldValue
  deriving DecidableEq

/-- The field that ends a header: a `bool` with the tag `Network::HeaderEnd`. -/
def MessageField.EndsHeader (f : MessageField) : Prop := f.tag = 0 ∧ ∃ v, f.value = .bool v

/-- The magnitude that `add` writes for an `int32`. -/
def int32Magnitude (value : Int32) : UInt64 :=
  if value < 0 then (value.toInt64 * -1).toUInt64 else value.toInt64.toUInt64

theorem toNat_toUInt64 (x : Int64) : x.toUInt64.toNat = (x.toInt % 2 ^ 64).toNat := by
  show x.toBitVec.toNat = _
  rw [← BitVec.ofInt_toInt (x := x.toBitVec), BitVec.toNat_ofInt]
  rfl

/-- The magnitude is the absolute value, also at `INT_MIN`. -/
theorem toNat_int32Magnitude (value : Int32) :
    (int32Magnitude value).toNat = value.toInt.natAbs := by
  have hlo := value.le_toInt
  have hhi := value.toInt_lt
  unfold int32Magnitude
  by_cases h : value < 0
  · have hneg : value.toInt < 0 := Int32.lt_iff_toInt_lt.mp h
    have hmul : (value.toInt64 * -1).toInt = -value.toInt := by
      rw [Int64.toInt_mul, Int32.toInt_toInt64]
      show (value.toInt * -1).bmod (2 ^ 64) = _
      rw [Int.bmod_eq_of_le] <;> omega
    rw [if_pos h, toNat_toUInt64, hmul]
    omega
  · have hpos : 0 ≤ value.toInt := by
      by_contra hc
      exact h (Int32.lt_iff_toInt_lt.mpr (by simpa using hc))
    rw [if_neg h, toNat_toUInt64, Int32.toInt_toInt64]
    omega

/-- The wire type of an `int32`. -/
def int32Type (value : Int32) : ValueType :=
  if value ≥ 0 then .positiveNumber else .negativeNumber

/-- The bytes of a field. -/
def MessageField.wire (f : MessageField) : List UInt8 :=
  match f.value with
  | .uint64 v => writeTag f.tag .positiveNumber ++ serialize v
  | .int32 v => writeTag f.tag (int32Type v) ++ serialize (int32Magnitude v)
  | .bool v => writeTag f.tag (if v then .boolTrue else .boolFalse)
  | .double v => writeTag f.tag .double ++ v.bytes
  | .string v => writeTag f.tag .string ++ serialize (UInt32.ofNat v.length).toUInt64 ++ v
  | .bytes v => writeTag f.tag .byteArray ++ serialize (UInt64.ofNat v.length) ++ v

/-! ## The builder -/

/-- `Streaming::MessageType`. -/
inductive MessageType where
  | headerOnly
  | headerAndBody
  | noHeader
  deriving DecidableEq, Repr

/-- `Streaming::MessageBuilder`. -/
structure MessageBuilder where
  buffer : BufferPool
  inHeader : Bool
  beforeHeader : Bool
  headerSize : ℕ
  messageType : MessageType

namespace MessageBuilder

/-- The constructor on a given pool. -/
def create (pool : BufferPool) (type : MessageType) : MessageBuilder where
  buffer := pool
  inHeader := type ≠ .noHeader
  beforeHeader := type ≠ .noHeader
  headerSize := 0
  messageType := type

/-- The opening of every `add`: before the first field of a message with a header,
reserve space for the size. -/
def reserveSize (b : MessageBuilder) : Option MessageBuilder :=
  if b.beforeHeader then do
    let pool ← b.buffer.markUsed 2
    some { b with buffer := pool, beforeHeader := false }
  else some b

/-- Write `bytes` at `m_buffer->data()` and mark them used. -/
def put (b : MessageBuilder) (bytes : List UInt8) : Option MessageBuilder := do
  let pool ← b.buffer.put bytes
  some { b with buffer := pool }

/-- `add(uint32_t, uint64_t)`. -/
def addUInt64 (b : MessageBuilder) (tag : UInt32) (value : UInt64) : Option MessageBuilder := do
  let b ← b.reserveSize
  let b ← b.put (writeTag tag .positiveNumber)
  b.put (serialize value)

/-- `add(uint32_t, const std::string &)`. -/
def addString (b : MessageBuilder) (tag : UInt32) (value : List UInt8) :
    Option MessageBuilder := do
  let b ← b.reserveSize
  let size := UInt32.ofNat value.length
  let b ← b.put (writeTag tag .string ++ serialize size.toUInt64)
  b.put value

/-- `add(uint32_t, const std::vector<char> &)`; the overloads on `ConstBuffer` and
on a pointer with a length write the same. -/
def addBytes (b : MessageBuilder) (tag : UInt32) (data : List UInt8) :
    Option MessageBuilder := do
  let b ← b.reserveSize
  let b ← b.put (writeTag tag .byteArray ++ serialize (UInt64.ofNat data.length))
  b.put data

/-- `add(uint32_t, bool)`; a field with tag `0` ends the header. -/
def addBool (b : MessageBuilder) (tag : UInt32) (value : Bool) : Option MessageBuilder := do
  let b ← b.reserveSize
  let b ← b.put (writeTag tag (if value then .boolTrue else .boolFalse))
  if b.inHeader && tag == 0 then
    some { b with inHeader := false, headerSize := b.buffer.size }
  else some b

/-- `add(uint32_t, int32_t)`. -/
def addInt32 (b : MessageBuilder) (tag : UInt32) (value : Int32) : Option MessageBuilder := do
  let b ← b.reserveSize
  guard (int32Magnitude value ≤ 0xFFFFFFFF)
  let b ← b.put (writeTag tag (int32Type value))
  b.put (serialize (int32Magnitude value))

/-- `add(uint32_t, double)`. -/
def addDouble (b : MessageBuilder) (tag : UInt32) (value : DoubleBits) :
    Option MessageBuilder := do
  let b ← b.reserveSize
  let b ← b.put (writeTag tag .double)
  b.put value.bytes

/-- The overload that a field calls. -/
def add (b : MessageBuilder) (f : MessageField) : Option MessageBuilder :=
  match f.value with
  | .uint64 v => b.addUInt64 f.tag v
  | .int32 v => b.addInt32 f.tag v
  | .bool v => b.addBool f.tag v
  | .double v => b.addDouble f.tag v
  | .string v => b.addString f.tag v
  | .bytes v => b.addBytes f.tag v

/-- `setMessageSize`: the two size bytes at the start of the uncommitted part. -/
def setMessageSize (b : MessageBuilder) (size : ℕ) : Option MessageBuilder := do
  guard (b.messageType ≠ .noHeader ∧ b.beforeHeader = false ∧ 0 < size)
  let pool ← b.buffer.store b.buffer.readPointer
    [UInt8.ofNat (size % 256), UInt8.ofNat (size / 256 % 256)]
  some { b with buffer := pool }

/-- `MessageBuilder::buffer`. -/
def commit (b : MessageBuilder) : Option (ConstBuffer × MessageBuilder) := do
  guard (b.beforeHeader = false)
  let b ← if b.messageType = .headerAndBody then b.setMessageSize b.buffer.size else some b
  let (answer, pool) := b.buffer.commit
  some (answer, { b with buffer := pool, beforeHeader := b.messageType ≠ .noHeader })

/-! ### One field -/

/-- With room for the bytes, `put` appends them and changes nothing else. -/
theorem put_spec (b : MessageBuilder) (bytes : List UInt8)
    (h : bytes.length ≤ b.buffer.capacity) :
    ∃ pool, b.put bytes = some { b with buffer := pool } ∧
      pool.used = b.buffer.used ++ bytes ∧
      pool.capacity + bytes.length = b.buffer.capacity := by
  obtain ⟨pool, hput, hused, hcap⟩ := b.buffer.put_spec bytes h
  refine ⟨pool, ?_, hused, hcap⟩
  rw [put, hput]
  rfl

/-- Two writes in a row are one write of both. -/
theorem put_put_spec (b : MessageBuilder) (x y : List UInt8)
    (h : (x ++ y).length ≤ b.buffer.capacity) :
    ∃ pool, (b.put x >>= fun b => b.put y) = some { b with buffer := pool } ∧
      pool.used = b.buffer.used ++ (x ++ y) ∧
      pool.capacity + (x ++ y).length = b.buffer.capacity := by
  rw [List.length_append] at h
  obtain ⟨mid, hx, hused, hcap⟩ := b.put_spec x (by omega)
  obtain ⟨pool, hy, hused', hcap'⟩ := MessageBuilder.put_spec { b with buffer := mid } y (by
    simp only
    omega)
  simp only at hused' hcap'
  refine ⟨pool, ?_, ?_, ?_⟩
  · rw [hx]
    exact hy
  · rw [hused', hused, List.append_assoc]
  · rw [List.length_append]
    omega

/-- The magnitude of an `int32` fits in 32 bits, so the assertion in `add` holds. -/
theorem int32Magnitude_le (value : Int32) : int32Magnitude value ≤ 0xFFFFFFFF := by
  rw [UInt64.le_iff_toNat_le, toNat_int32Magnitude]
  have hlo := value.le_toInt
  have hhi := value.toInt_lt
  show value.toInt.natAbs ≤ 4294967295
  omega

/-- **One field that does not end a header.**  `add` appends the bytes of the field. -/
theorem add_spec (b : MessageBuilder) (f : MessageField) (hbefore : b.beforeHeader = false)
    (hheader : ¬ (b.inHeader = true ∧ f.EndsHeader)) (h : f.wire.length ≤ b.buffer.capacity) :
    ∃ pool, b.add f = some { b with buffer := pool } ∧
      pool.used = b.buffer.used ++ f.wire ∧
      pool.capacity + f.wire.length = b.buffer.capacity := by
  have hreserve : b.reserveSize = some b := by
    rw [reserveSize, hbefore]
    rfl
  unfold add
  cases hv : f.value with
  | uint64 v =>
    simp only [MessageField.wire, hv] at h ⊢
    simp only [addUInt64, hreserve]
    exact b.put_put_spec _ _ h
  | int32 v =>
    simp only [MessageField.wire, hv] at h ⊢
    simp only [addInt32, hreserve, int32Magnitude_le]
    exact b.put_put_spec _ _ h
  | bool v =>
    simp only [MessageField.wire, hv] at h ⊢
    obtain ⟨pool, hput, hused, hcap⟩ := b.put_spec _ h
    refine ⟨pool, ?_, hused, hcap⟩
    have hends : (b.inHeader && f.tag == 0) = false := by
      rw [← Bool.not_eq_true, Bool.and_eq_true, beq_iff_eq]
      exact fun hc => hheader ⟨hc.1, hc.2, v, hv⟩
    simp only [addBool, hreserve, Option.bind_eq_bind, Option.bind_some, hput, hends]
    rfl
  | double v =>
    simp only [MessageField.wire, hv] at h ⊢
    simp only [addDouble, hreserve]
    exact b.put_put_spec _ _ h
  | string v =>
    simp only [MessageField.wire, hv] at h ⊢
    simp only [addString, hreserve]
    exact b.put_put_spec _ _ h
  | bytes v =>
    simp only [MessageField.wire, hv] at h ⊢
    simp only [addBytes, hreserve]
    exact b.put_put_spec _ _ h

/-- Adding fields one by one appends their bytes, if none of them ends the header. -/
theorem foldlM_add_spec : ∀ (fs : List MessageField) (b : MessageBuilder),
    b.beforeHeader = false → (b.inHeader = true → ∀ f ∈ fs, ¬ f.EndsHeader) →
    (fs.map (·.wire.length)).sum ≤ b.buffer.capacity →
    ∃ pool, fs.foldlM add b = some { b with buffer := pool } ∧
      pool.used = b.buffer.used ++ (fs.map MessageField.wire).flatten ∧
      pool.capacity + (fs.map (·.wire.length)).sum = b.buffer.capacity := by
  intro fs
  induction fs with
  | nil =>
    intro b _ _ _
    exact ⟨b.buffer, rfl, by simp, by simp⟩
  | cons f fs ih =>
    intro b hbefore hheader hcap
    rw [List.map_cons, List.sum_cons] at hcap
    obtain ⟨mid, hadd, hused, hleft⟩ := b.add_spec f hbefore
      (fun hc => hheader hc.1 f List.mem_cons_self hc.2) (by omega)
    obtain ⟨pool, hrest, hused', hleft'⟩ := ih { b with buffer := mid } hbefore
      (fun hin g hg => hheader hin g (List.mem_cons_of_mem f hg)) (by
        simp only
        omega)
    refine ⟨pool, ?_, ?_, ?_⟩
    · rw [List.foldlM_cons, hadd]
      exact hrest
    · rw [hused']
      simp only
      rw [hused, List.map_cons, List.flatten_cons, List.append_assoc]
    · simp only at hleft'
      rw [List.map_cons, List.sum_cons]
      omega

end MessageBuilder

end Streaming
