/-
# The message parser

`Streaming::MessageParser` (`libs/utils/streaming/MessageParser.cpp`) walks over
the fields of a message.  `next` moves to the following field and keeps its tag,
its kind and where its value is; the accessors read the value.

The parser copies the eight bytes of a `double` without looking at the length of
the buffer, and adds an attacker's 64-bit length to its position without looking
at the carry.  A read outside the buffer is `none` here.  `next_inBounds_iff` says
for which fields one call stays inside the buffer and moves forward, and
`progressAndBounds_iff` lifts it to every sequence of calls.
-/
import Hub.MessageBuilder

namespace Streaming

/-! ## The parser -/

/-- `Streaming::ParsedType`. -/
inductive ParsedType where
  | foundTag
  | endOfDocument
  | error
  deriving DecidableEq, Repr

/-- `Streaming::variant`. -/
inductive Variant where
  | int32 (value : Int32)
  | bool (value : Bool)
  | uint64 (value : UInt64)
  | string (value : List UInt8)
  | bytes (value : List UInt8)
  | double (value : DoubleBits)
  deriving DecidableEq

/-- `MessageParser::LazyState`. -/
inductive LazyState where
  | valueParsed
  | lazyByteArray
  | lazyString
  deriving DecidableEq, Repr

/-- `Streaming::MessageParser`; `m_length` is the size of the buffer. -/
structure MessageParser where
  buffer : ConstBuffer
  position : ℕ
  value : Variant
  tag : UInt32
  valueState : LazyState
  dataStart : ℤ
  dataLength : ℤ

/-- The loop of `unserialize`; the first argument counts the bytes it may still
take. -/
def unserializeLoop (data : List UInt8) : ℕ → ℕ → UInt64 → Option (UInt64 × ℕ)
  | 0, _, _ => none
  | fuel + 1, pos, result =>
      match data[pos]? with
      | none => none
      | some byte =>
          let result := (result <<< 7) ||| (byte &&& 0x7F).toUInt64
          if byte &&& 0x80 ≠ 0 then unserializeLoop data fuel (pos + 1) (result + 1)
          else some (result, pos + 1)

/-- `unserialize`: the number at `position` and the position behind it. -/
def unserialize (data : List UInt8) (position : ℕ) : Option (UInt64 × ℕ) :=
  unserializeLoop data 10 position 0

/-- `static_cast<ValueType>(byte & 0x07)`; there is no type with code 7. -/
def ValueType.ofByte (byte : UInt8) : Option ValueType :=
  let code := byte &&& 0x07
  if code = 0 then some .positiveNumber
  else if code = 1 then some .negativeNumber
  else if code = 2 then some .string
  else if code = 3 then some .byteArray
  else if code = 4 then some .boolTrue
  else if code = 5 then some .boolFalse
  else if code = 6 then some .double
  else none

namespace MessageParser

/-- The constructor. -/
def create (buffer : ConstBuffer) : MessageParser where
  buffer := buffer
  position := 0
  value := .int32 0
  tag := 0
  valueState := .valueParsed
  dataStart := -1
  dataLength := -1

/-- The bytes of the buffer. -/
def data (p : MessageParser) : List UInt8 := p.buffer.bytes

/-- `m_length`. -/
def length (p : MessageParser) : ℕ := p.buffer.bytes.length

/-- The second part of `next`: a tag of 31 means that the tag follows as a number.
Afterwards `position` is at the last byte of the tag. -/
def readTag (p : MessageParser) : Bool × MessageParser :=
  if p.tag = 31 then
    match unserialize p.data (p.position + 1) with
    | none => (false, p)
    | some (tag, pos) =>
        if tag > 0xFFFFFFFF then (false, { p with position := pos - 1 })
        else (true, { p with position := pos - 1, tag := tag.toUInt32 })
  else (true, p)

/-- The value that a number is kept as. -/
def numberValue (type : ValueType) (value : UInt64) : Variant :=
  if type = .negativeNumber then .int32 (value * -1).toUInt32.toInt32
  else if value < 0x7FFFFFFF then .int32 value.toUInt32.toInt32
  else .uint64 value

/-- The cases `PositiveNumber` and `NegativeNumber` of `next`. -/
def readNumber (p : MessageParser) (type : ValueType) : ParsedType × MessageParser :=
  match unserialize p.data (p.position + 1) with
  | none => (.error, p)
  | some (value, pos) => (.foundTag, { p with position := pos, value := numberValue type value })

/-- The cases `ByteArray` and `String` of `next`.  The sum `newPos + value` is taken
in 64 bits. -/
def readBlob (p : MessageParser) (type : ValueType) : ParsedType × MessageParser :=
  match unserialize p.data (p.position + 1) with
  | none => (.error, p)
  | some (value, newPos) =>
      if UInt64.ofNat newPos + value > UInt64.ofNat p.length then (.error, p)
      else
        (.foundTag, { p with
          valueState := if type = .byteArray then .lazyByteArray else .lazyString
          dataStart := newPos
          dataLength := value.toUInt32.toInt32.toInt
          position := (UInt64.ofNat newPos + value).toNat })

/-- The eight bytes at `i`, as `memcpy` takes them. -/
def readDouble? (data : List UInt8) (i : ℕ) : Option DoubleBits :=
  if h : (slice data i (i + 8)).length = 8 then some ⟨slice data i (i + 8), h⟩ else none

/-- The `switch` of `next`. -/
def readValue (p : MessageParser) (type : Option ValueType) :
    Option (ParsedType × MessageParser) :=
  match type with
  | some .positiveNumber => some (p.readNumber .positiveNumber)
  | some .negativeNumber => some (p.readNumber .negativeNumber)
  | some .byteArray => some (p.readBlob .byteArray)
  | some .string => some (p.readBlob .string)
  | some .boolTrue => some (.foundTag, { p with value := .bool true, position := p.position + 1 })
  | some .boolFalse =>
      some (.foundTag, { p with value := .bool false, position := p.position + 1 })
  | some .double => do
      let tmp ← readDouble? p.data (p.position + 1)
      some (.foundTag, { p with value := .double tmp, position := p.position + 1 + 8 })
  | none => some (.error, p)

/-- `MessageParser::next`. -/
def next (p : MessageParser) : Option (ParsedType × MessageParser) :=
  if p.length ≤ p.position then some (.endOfDocument, p)
  else do
    let byte ← p.data[p.position]?
    let p := { p with valueState := .valueParsed, tag := (byte >>> 3).toUInt32 }
    match p.readTag with
    | (false, p) => some (.error, p)
    | (true, p) => p.readValue (ValueType.ofByte byte)

/-! ### Accessors -/

def isInt (p : MessageParser) : Bool :=
  p.valueState == .valueParsed && match p.value with | .int32 _ => true | _ => false

def isLong (p : MessageParser) : Bool :=
  p.valueState == .valueParsed && match p.value with | .int32 _ | .uint64 _ => true | _ => false

def isString (p : MessageParser) : Bool :=
  p.valueState == .lazyString || match p.value with | .string _ => true | _ => false

def isBool (p : MessageParser) : Bool :=
  p.valueState == .valueParsed && match p.value with | .bool _ => true | _ => false

def isByteArray (p : MessageParser) : Bool :=
  p.valueState == .lazyByteArray || match p.value with | .bytes _ => true | _ => false

def isDouble (p : MessageParser) : Bool :=
  p.valueState == .valueParsed && match p.value with | .double _ => true | _ => false

/-- `intData`. -/
def intData (p : MessageParser) : Int32 :=
  if p.valueState = .valueParsed then
    match p.value with
    | .int32 v => v
    | .uint64 v => v.toUInt32.toInt32
    | _ => 0
  else 0

/-- `longData`; it does not look at the lazy state. -/
def longData (p : MessageParser) : UInt64 :=
  match p.value with
  | .int32 v => v.toInt64.toUInt64
  | .uint64 v => v
  | _ => 0

/-- `doubleData`; the default is `0.0`, whose bytes are all zero. -/
def doubleData (p : MessageParser) : DoubleBits :=
  match p.value with
  | .double v => v
  | _ => ⟨List.replicate 8 0, rfl⟩

/-- `boolData`. -/
def boolData (p : MessageParser) : Bool :=
  if p.valueState = .valueParsed then
    match p.value with
    | .bool v => v
    | _ => false
  else false

/-- The bytes that the lazy states point to; `none` when they are not all inside
the buffer. -/
def lazyData (p : MessageParser) : Option (List UInt8) :=
  if 0 ≤ p.dataStart ∧ 0 ≤ p.dataLength ∧ p.dataStart + p.dataLength ≤ p.length then
    some (slice p.data p.dataStart.toNat (p.dataStart + p.dataLength).toNat)
  else none

/-- `stringData`. -/
def stringData (p : MessageParser) : Option (List UInt8) :=
  if p.valueState = .lazyString then p.lazyData
  else
    match p.value with
    | .string v => some v
    | _ => some []

/-- `bytesData`. -/
def bytesData (p : MessageParser) : Option (List UInt8) :=
  if p.valueState = .lazyByteArray then p.lazyData
  else
    match p.value with
    | .bytes v => some v
    | _ => some []

/-! ## One call -/

/-- `unserialize` moves forward and stays inside the buffer. -/
theorem unserializeLoop_bounds (data : List UInt8) : ∀ (fuel pos : ℕ) (result : UInt64)
    {v : UInt64} {e : ℕ}, unserializeLoop data fuel pos result = some (v, e) →
    pos < e ∧ e ≤ data.length := by
  intro fuel
  induction fuel with
  | zero =>
    intro pos result v e h
    simp [unserializeLoop] at h
  | succ fuel ih =>
    intro pos result v e h
    rw [unserializeLoop] at h
    cases hbyte : data[pos]? with
    | none => simp [hbyte] at h
    | some byte =>
      obtain ⟨hlt, -⟩ := List.getElem?_eq_some_iff.mp hbyte
      simp only [hbyte] at h
      split at h
      · have := ih _ _ h
        omega
      · simp only [Option.some.injEq, Prod.mk.injEq] at h
        omega

theorem unserialize_bounds {data : List UInt8} {pos : ℕ} {v : UInt64} {e : ℕ}
    (h : unserialize data pos = some (v, e)) : pos < e ∧ e ≤ data.length :=
  unserializeLoop_bounds data 10 pos 0 h

/-- The position of the last byte of the tag of the field that starts with `byte`
at `pos`, if the tag is well formed. -/
def tagEnd? (data : List UInt8) (pos : ℕ) (byte : UInt8) : Option ℕ :=
  if byte >>> 3 = 31 then
    match unserialize data (pos + 1) with
    | none => none
    | some (tag, e) => if tag > 0xFFFFFFFF then none else some (e - 1)
  else some pos

/-- What the field at `pos` must satisfy for `next` to stay inside the buffer and to
move forward: a `double` has all its eight bytes, and the length of a string or byte
array does not carry the position round to `pos` or before. -/
def FieldFits (data : List UInt8) (pos : ℕ) : Prop :=
  ∀ byte e, data[pos]? = some byte → tagEnd? data pos byte = some e →
    (ValueType.ofByte byte = some .double → e + 9 ≤ data.length) ∧
    (ValueType.ofByte byte = some .string ∨ ValueType.ofByte byte = some .byteArray →
      ∀ v newPos, unserialize data (e + 1) = some (v, newPos) →
        newPos + v.toNat < 2 ^ 64 ∨ pos < newPos + v.toNat - 2 ^ 64)

/-- One call reads only inside the buffer, leaves `consumed()` inside it, and moves
forward when it finds a field. -/
def InBounds (p : MessageParser) : Prop :=
  ∃ r p', p.next = some (r, p') ∧ p'.position ≤ p.length ∧
    (r = .foundTag → p.position < p'.position)

/-- A tag that is read ends inside the buffer, at or behind its first byte. -/
theorem tagEnd?_bounds {data : List UInt8} {pos e : ℕ} {byte : UInt8}
    (hpos : pos < data.length) (h : tagEnd? data pos byte = some e) :
    pos ≤ e ∧ e < data.length := by
  unfold tagEnd? at h
  split at h
  · cases hu : unserialize data (pos + 1) with
    | none => simp [hu] at h
    | some te =>
      obtain ⟨tag, e'⟩ := te
      have hb := unserialize_bounds hu
      simp only [hu] at h
      split at h
      · simp at h
      · simp only [Option.some.injEq] at h
        omega
  · simp only [Option.some.injEq] at h
    omega

/-- What `readTag` does, in terms of `tagEnd?`: on success it moves to the end of the
tag, on failure it stays inside the buffer. -/
theorem readTag_spec (p : MessageParser) (byte : UInt8) (hpos : p.position < p.length)
    (htag : p.tag = (byte >>> 3).toUInt32) :
    match tagEnd? p.data p.position byte with
    | none => ∃ p', p.readTag = (false, p') ∧ p'.position ≤ p.length
    | some e => ∃ tag, p.readTag = (true, { p with position := e, tag := tag }) := by
  have hiff : p.tag = 31 ↔ byte >>> 3 = 31 := by
    rw [htag, ← UInt32.toNat_inj, ← UInt8.toNat_inj, UInt8.toNat_toUInt32]
    rfl
  unfold tagEnd? readTag
  by_cases h : byte >>> 3 = 31
  · rw [if_pos h, if_pos (hiff.mpr h)]
    cases hu : unserialize p.data (p.position + 1) with
    | none => exact ⟨p, rfl, le_of_lt hpos⟩
    | some te =>
      obtain ⟨tag, e⟩ := te
      have hb := unserialize_bounds hu
      simp only
      by_cases hbig : tag > 0xFFFFFFFF
      · rw [if_pos hbig, if_pos hbig]
        refine ⟨_, rfl, ?_⟩
        show e - 1 ≤ p.data.length
        omega
      · rw [if_neg hbig, if_neg hbig]
        exact ⟨tag.toUInt32, rfl⟩
  · rw [if_neg h, if_neg (fun hc => h (hiff.mp hc))]
    exact ⟨p.tag, rfl⟩

/-- The 64-bit sum of a position and a length. -/
theorem toNat_ofNat_add {n : ℕ} (hn : n < 2 ^ 64) (v : UInt64) :
    (UInt64.ofNat n + v).toNat = (n + v.toNat) % 2 ^ 64 := by
  rw [UInt64.toNat_add, UInt64.toNat_ofNat']
  rw [Nat.mod_eq_of_lt hn]

/-- The case of a string or a byte array. -/
theorem readBlob_bounds_iff (p : MessageParser) (type : ValueType) (start : ℕ)
    (hstart : start ≤ p.position) (hpos : p.position < p.length) :
    ((p.readBlob type).2.position ≤ p.length ∧
      ((p.readBlob type).1 = .foundTag → start < (p.readBlob type).2.position)) ↔
    ∀ v newPos, unserialize p.data (p.position + 1) = some (v, newPos) →
      newPos + v.toNat < 2 ^ 64 ∨ start < newPos + v.toNat - 2 ^ 64 := by
  have hsize : p.length < 2 ^ 31 := p.buffer.size_lt
  unfold readBlob
  cases hu : unserialize p.data (p.position + 1) with
  | none =>
    simp only [reduceCtorEq, false_implies, implies_true, and_true, iff_true]
    omega
  | some vn =>
    obtain ⟨v, newPos⟩ := vn
    have hb : p.position + 1 < newPos ∧ newPos ≤ p.length := unserialize_bounds hu
    have hv := v.toNat_lt
    have hsum := toNat_ofNat_add (n := newPos) (by omega) v
    have hlen : (UInt64.ofNat p.length).toNat = p.length := by
      rw [UInt64.toNat_ofNat', Nat.mod_eq_of_lt (by omega)]
    have hgt : UInt64.ofNat newPos + v > UInt64.ofNat p.length ↔
        p.length < (newPos + v.toNat) % 2 ^ 64 := by
      rw [gt_iff_lt, UInt64.lt_iff_toNat_lt, hlen, hsum]
    constructor
    · rintro ⟨-, hfound⟩ v' newPos' heq
      obtain ⟨rfl, rfl⟩ : v = v' ∧ newPos = newPos' := by simpa using heq
      by_contra hc
      push Not at hc
      obtain ⟨hwrap, hback⟩ := hc
      -- the sum went round, so it passes the test against the length
      have hmod : (newPos + v.toNat) % 2 ^ 64 = newPos + v.toNat - 2 ^ 64 := by omega
      have hng : ¬ UInt64.ofNat newPos + v > UInt64.ofNat p.length := by
        rw [hgt, hmod]
        omega
      simp only [if_neg hng, hsum, hmod] at hfound
      have := hfound trivial
      omega
    · intro hfit
      have hcase := hfit v newPos rfl
      simp only
      by_cases hg : UInt64.ofNat newPos + v > UInt64.ofNat p.length
      · rw [if_pos hg]
        simp only [reduceCtorEq, false_implies, and_true]
        omega
      · rw [if_neg hg]
        simp only [hsum, true_implies]
        rw [hgt] at hg
        rcases hcase with hlt | hback
        · rw [Nat.mod_eq_of_lt hlt] at hg ⊢
          omega
        · by_cases hlt : newPos + v.toNat < 2 ^ 64
          · omega
          · have hmod : (newPos + v.toNat) % 2 ^ 64 = newPos + v.toNat - 2 ^ 64 := by omega
            rw [hmod]
            omega

/-- The case of a number. -/
theorem readNumber_bounds (p : MessageParser) (type : ValueType)
    (hpos : p.position < p.length) :
    (p.readNumber type).2.position ≤ p.length ∧
      ((p.readNumber type).1 = .foundTag → p.position < (p.readNumber type).2.position) := by
  unfold readNumber
  cases hu : unserialize p.data (p.position + 1) with
  | none => exact ⟨le_of_lt hpos, by simp⟩
  | some vn =>
    obtain ⟨v, newPos⟩ := vn
    have hb : p.position + 1 < newPos ∧ newPos ≤ p.length := unserialize_bounds hu
    exact ⟨hb.2, fun _ => by simp only; omega⟩

/-- The copy of a `double` succeeds exactly when its eight bytes are there. -/
theorem readDouble?_isSome (data : List UInt8) (i : ℕ) :
    (readDouble? data i).isSome ↔ i + 8 ≤ data.length := by
  have hlen : (slice data i (i + 8)).length = 8 ↔ i + 8 ≤ data.length := by
    rw [slice, List.length_drop, List.length_take]
    omega
  unfold readDouble?
  rw [← hlen]
  split <;> simp_all

/-- The case of a `double`. -/
theorem readDouble_bounds_iff (p : MessageParser) (start : ℕ) (hstart : start ≤ p.position) :
    (∃ r p', p.readValue (some .double) = some (r, p') ∧ p'.position ≤ p.length ∧
      (r = .foundTag → start < p'.position)) ↔ p.position + 9 ≤ p.length := by
  have hsome := readDouble?_isSome p.data (p.position + 1)
  constructor
  · rintro ⟨r, p', heq, -⟩
    have hcopy : (readDouble? p.data (p.position + 1)).isSome := by
      by_contra hc
      rw [Option.not_isSome_iff_eq_none] at hc
      simp [readValue, hc] at heq
    exact hsome.mp hcopy
  · intro hfit
    obtain ⟨tmp, htmp⟩ := Option.isSome_iff_exists.mp (hsome.mpr hfit)
    refine ⟨.foundTag, { p with value := .double tmp, position := p.position + 1 + 8 }, ?_, ?_, ?_⟩
    · simp only [readValue, htmp]
      rfl
    · exact hfit
    · intro _
      simp only
      omega

/-- **The `switch` of `next`.**  The value of a field that begins at `start` is read
inside the buffer, with progress, if and only if it is neither a cut-off `double` nor a
string or byte array whose length carries the position round. -/
theorem readValue_bounds_iff (p : MessageParser) (type : Option ValueType) (start : ℕ)
    (hstart : start ≤ p.position) (hpos : p.position < p.length) :
    (∃ r p', p.readValue type = some (r, p') ∧ p'.position ≤ p.length ∧
      (r = .foundTag → start < p'.position)) ↔
    (type = some .double → p.position + 9 ≤ p.length) ∧
    (type = some .string ∨ type = some .byteArray →
      ∀ v newPos, unserialize p.data (p.position + 1) = some (v, newPos) →
        newPos + v.toNat < 2 ^ 64 ∨ start < newPos + v.toNat - 2 ^ 64) := by
  have hnumber : ∀ t, ∃ r p', some (p.readNumber t) = some (r, p') ∧
      p'.position ≤ p.length ∧ (r = .foundTag → start < p'.position) := by
    intro t
    obtain ⟨h1, h2⟩ := p.readNumber_bounds t hpos
    exact ⟨_, _, rfl, h1, fun h => lt_of_le_of_lt hstart (h2 h)⟩
  have hblob : ∀ t, (∃ r p', some (p.readBlob t) = some (r, p') ∧
      p'.position ≤ p.length ∧ (r = .foundTag → start < p'.position)) ↔
      ∀ v newPos, unserialize p.data (p.position + 1) = some (v, newPos) →
        newPos + v.toNat < 2 ^ 64 ∨ start < newPos + v.toNat - 2 ^ 64 := by
    intro t
    rw [← p.readBlob_bounds_iff t start hstart hpos]
    constructor
    · rintro ⟨r, p', heq, h⟩
      rw [Option.some.injEq] at heq
      rw [heq]
      exact h
    · intro h
      exact ⟨_, _, rfl, h⟩
  cases type with
  | none => simpa [readValue] using le_of_lt hpos
  | some type =>
    cases type with
    | positiveNumber => simpa [readValue] using hnumber .positiveNumber
    | negativeNumber => simpa [readValue] using hnumber .negativeNumber
    | string => simpa [readValue] using hblob .string
    | byteArray => simpa [readValue] using hblob .byteArray
    | boolTrue =>
      simp [readValue]
      omega
    | boolFalse =>
      simp [readValue]
      omega
    | double => simpa using p.readDouble_bounds_iff start hstart

/-- For the field that starts with `byte` and whose tag ends at `e`, `FieldFits` is the
condition of `readValue_bounds_iff`. -/
theorem fieldFits_iff {data : List UInt8} {pos e : ℕ} {byte : UInt8}
    (hbyte : data[pos]? = some byte) (he : tagEnd? data pos byte = some e) :
    FieldFits data pos ↔
      (ValueType.ofByte byte = some .double → e + 9 ≤ data.length) ∧
      (ValueType.ofByte byte = some .string ∨ ValueType.ofByte byte = some .byteArray →
        ∀ v newPos, unserialize data (e + 1) = some (v, newPos) →
          newPos + v.toNat < 2 ^ 64 ∨ pos < newPos + v.toNat - 2 ^ 64) := by
  constructor
  · intro h
    exact h byte e hbyte he
  · intro h byte' e' hbyte' he'
    rw [hbyte, Option.some.injEq] at hbyte'
    subst hbyte'
    rw [he, Option.some.injEq] at he'
    subst he'
    exact h

/-- **One call of `next`.**  From a position inside the buffer it stays inside and
moves forward if and only if the field there fits. -/
theorem next_inBounds_iff (p : MessageParser) (hpos : p.position ≤ p.length) :
    p.InBounds ↔ FieldFits p.data p.position := by
  unfold InBounds next
  by_cases hend : p.length ≤ p.position
  · -- nothing left: the call returns at once
    have hnone : p.data[p.position]? = none := List.getElem?_eq_none hend
    rw [if_pos hend]
    constructor
    · intro _ byte e hbyte
      rw [hnone] at hbyte
      simp at hbyte
    · intro _
      exact ⟨.endOfDocument, p, rfl, hpos, by simp⟩
  · push Not at hend
    have hlt : p.position < p.data.length := hend
    obtain ⟨byte, hbyte⟩ : ∃ byte, p.data[p.position]? = some byte :=
      ⟨_, List.getElem?_eq_getElem hlt⟩
    rw [if_neg (by omega)]
    simp only [hbyte, Option.bind_eq_bind, Option.bind_some]
    set q : MessageParser :=
      { p with valueState := .valueParsed, tag := (byte >>> 3).toUInt32 }
    have htag : match tagEnd? p.data p.position byte with
        | none => ∃ p', q.readTag = (false, p') ∧ p'.position ≤ p.length
        | some e => ∃ tag, q.readTag = (true, { q with position := e, tag := tag }) :=
      q.readTag_spec byte hend rfl
    cases he : tagEnd? p.data p.position byte with
    | none =>
      rw [he] at htag
      obtain ⟨p', hread, hp'⟩ := htag
      rw [hread]
      constructor
      · intro _ byte' e hbyte' he'
        rw [hbyte, Option.some.injEq] at hbyte'
        rw [← hbyte', he] at he'
        simp at he'
      · intro _
        exact ⟨.error, p', rfl, hp', by simp⟩
    | some e =>
      rw [he] at htag
      obtain ⟨tag, hread⟩ := htag
      obtain ⟨hle, hlen⟩ := tagEnd?_bounds hlt he
      rw [hread, fieldFits_iff hbyte he]
      exact readValue_bounds_iff { q with position := e, tag := tag } _ p.position hle hlen

/-! ## Every sequence of calls -/

/-- The parser after `n` calls of `next`, whatever they return. -/
def afterCalls (p : MessageParser) : ℕ → Option MessageParser
  | 0 => some p
  | n + 1 => do
      let q ← p.afterCalls n
      let (_, q) ← q.next
      some q

/-- The loop that calls `next` until it stops returning `FoundTag`, with a bound on its
rounds: what the last call returned. -/
def drain : ℕ → MessageParser → Option ParsedType
  | 0, _ => none
  | fuel + 1, p =>
      match p.next with
      | none => none
      | some (.foundTag, p) => drain fuel p
      | some (r, _) => some r

/-- Every call, in every sequence of calls of `next` over `buffer`, reads inside the
buffer, leaves `consumed()` inside it and moves forward when it finds a field; and the
loop over all fields ends. -/
def ProgressAndBounds (buffer : ConstBuffer) : Prop :=
  (∀ n, ∃ p, (create buffer).afterCalls n = some p ∧ p.position ≤ buffer.bytes.length ∧
    p.InBounds) ∧
  ∃ rounds r, drain rounds (create buffer) = some r

theorem buffer_readTag (p : MessageParser) : p.readTag.2.buffer = p.buffer := by
  unfold readTag
  split
  · split
    · rfl
    · split <;> rfl
  · rfl

theorem buffer_readNumber (p : MessageParser) (type : ValueType) :
    (p.readNumber type).2.buffer = p.buffer := by
  unfold readNumber
  split <;> rfl

theorem buffer_readBlob (p : MessageParser) (type : ValueType) :
    (p.readBlob type).2.buffer = p.buffer := by
  unfold readBlob
  split
  · rfl
  · split <;> rfl

theorem buffer_readValue {p p' : MessageParser} {type : Option ValueType} {r : ParsedType}
    (h : p.readValue type = some (r, p')) : p'.buffer = p.buffer := by
  have hsnd : ∀ res : ParsedType × MessageParser, some res = some (r, p') → p' = res.2 := by
    rintro res hres
    rw [Option.some.injEq] at hres
    rw [hres]
  unfold readValue at h
  split at h
  · rw [hsnd _ h, buffer_readNumber]
  · rw [hsnd _ h, buffer_readNumber]
  · rw [hsnd _ h, buffer_readBlob]
  · rw [hsnd _ h, buffer_readBlob]
  · rw [hsnd _ h]
  · rw [hsnd _ h]
  · cases hd : readDouble? p.data (p.position + 1) with
    | none => simp [hd] at h
    | some tmp =>
      simp only [hd] at h
      rw [hsnd _ h]
  · rw [hsnd _ h]

/-- No call changes the buffer. -/
theorem buffer_next {p p' : MessageParser} {r : ParsedType} (h : p.next = some (r, p')) :
    p'.buffer = p.buffer := by
  unfold next at h
  split at h
  · simp only [Option.some.injEq, Prod.mk.injEq] at h
    rw [h.2]
  · cases hbyte : p.data[p.position]? with
    | none => simp [hbyte] at h
    | some byte =>
      simp only [hbyte, Option.bind_eq_bind, Option.bind_some] at h
      set q : MessageParser :=
        { p with valueState := .valueParsed, tag := (byte >>> 3).toUInt32 }
      have hq : q.readTag.2.buffer = p.buffer := q.buffer_readTag
      rcases hread : q.readTag with ⟨ok, m⟩
      rw [hread] at h hq
      cases ok with
      | false =>
        simp only [Option.some.injEq, Prod.mk.injEq] at h
        rw [← h.2]
        exact hq
      | true => rw [buffer_readValue h, hq]

/-- A call that is in bounds leads to a position inside the same buffer. -/
theorem InBounds.position_le {p p' : MessageParser} {r : ParsedType} (h : p.InBounds)
    (hnext : p.next = some (r, p')) :
    p'.position ≤ p'.length ∧ (r = .foundTag → p.position < p'.position) := by
  obtain ⟨r₁, p₁, hcall, hle, hprog⟩ := h
  obtain ⟨rfl, rfl⟩ : r = r₁ ∧ p' = p₁ := by simpa [hnext] using hcall
  have hbuf := buffer_next hnext
  refine ⟨?_, hprog⟩
  rw [length, hbuf]
  exact hle

/-- If the field at every position reached fits, then so does every call. -/
theorem afterCalls_inBounds {buffer : ConstBuffer}
    (hfits : ∀ n p, (create buffer).afterCalls n = some p → FieldFits p.data p.position) (n : ℕ) :
    ∃ p, (create buffer).afterCalls n = some p ∧ p.buffer = buffer ∧
      p.position ≤ p.length ∧ p.InBounds := by
  induction n with
  | zero =>
    have hle : (create buffer).position ≤ (create buffer).length := Nat.zero_le _
    exact ⟨create buffer, rfl, rfl, hle, (next_inBounds_iff _ hle).mpr (hfits 0 _ rfl)⟩
  | succ n ih =>
    obtain ⟨p, hp, hbuf, -, hin⟩ := ih
    obtain ⟨r, p', hnext, -, -⟩ := id hin
    have hafter : (create buffer).afterCalls (n + 1) = some p' := by
      rw [afterCalls, hp]
      simp [hnext]
    have hle := (hin.position_le hnext).1
    exact ⟨p', hafter, by rw [buffer_next hnext, hbuf], hle,
      (next_inBounds_iff _ hle).mpr (hfits _ _ hafter)⟩

/-- Each round of the loop that goes on takes the position further, so the bytes that
are left bound the rounds. -/
theorem drain_ends {buffer : ConstBuffer}
    (hfits : ∀ n p, (create buffer).afterCalls n = some p → FieldFits p.data p.position) :
    ∀ (left n : ℕ) (p : MessageParser), (create buffer).afterCalls n = some p →
      p.length - p.position ≤ left → ∃ r, drain (left + 1) p = some r := by
  intro left
  induction left with
  | zero =>
    intro n p hp hleft
    -- at the end of the buffer the call returns `EndOfDocument`
    refine ⟨.endOfDocument, ?_⟩
    rw [drain, next, if_pos (by omega)]
  | succ left ih =>
    intro n p hp hleft
    obtain ⟨q, hq, -, hle, hin⟩ := afterCalls_inBounds hfits n
    obtain rfl : p = q := by simpa [hp] using hq
    obtain ⟨r, p', hnext, -, -⟩ := id hin
    obtain ⟨hle', hprog⟩ := hin.position_le hnext
    rw [drain, hnext]
    cases r with
    | foundTag =>
      have hafter : (create buffer).afterCalls (n + 1) = some p' := by
        rw [afterCalls, hp]
        simp [hnext]
      have hlen : p'.length = p.length := by rw [length, buffer_next hnext, length]
      have := hprog rfl
      exact ih (n + 1) p' hafter (by omega)
    | endOfDocument => exact ⟨_, rfl⟩
    | error => exact ⟨_, rfl⟩

/-- **Progress and bounds.**  A buffer is walked inside its bounds, with progress and
to an end, if and only if at every position the parser gets to there is a field that
fits. -/
theorem progressAndBounds_iff (buffer : ConstBuffer) :
    ProgressAndBounds buffer ↔
      ∀ n p, (create buffer).afterCalls n = some p → FieldFits p.data p.position := by
  constructor
  · rintro ⟨hcalls, -⟩ n p hp
    obtain ⟨q, hq, hle, hin⟩ := hcalls n
    obtain rfl : p = q := by simpa [hp] using hq
    by_cases hbuf : p.position ≤ p.length
    · exact (next_inBounds_iff p hbuf).mp hin
    · intro byte e hbyte
      rw [List.getElem?_eq_none (by push Not at hbuf; exact le_of_lt hbuf)] at hbyte
      simp at hbyte
  · intro hfits
    refine ⟨fun n => ?_, ?_⟩
    · obtain ⟨p, hp, hbuf, hle, hin⟩ := afterCalls_inBounds hfits n
      rw [length, hbuf] at hle
      exact ⟨p, hp, hle, hin⟩
    · obtain ⟨r, hr⟩ := drain_ends hfits (create buffer).length 0 (create buffer) rfl
        (Nat.sub_le _ _)
      exact ⟨_, r, hr⟩

/-- A byte array whose length is `2 ^ 64 - 11`. -/
def wrappingBuffer : ConstBuffer where
  bytes := [0x03, 0x80, 0xFE, 0xFE, 0xFE, 0xFE, 0xFE, 0xFE, 0xFE, 0xFE, 0x75]
  size_lt := by decide

/-- On `wrappingBuffer` the first call finds a field and stays at position `0`. -/
theorem not_progressAndBounds_wrappingBuffer : ¬ ProgressAndBounds wrappingBuffer := by
  rintro ⟨hcalls, -⟩
  obtain ⟨p, hp, -, r, p', hnext, -, hprog⟩ := hcalls 0
  obtain rfl : create wrappingBuffer = p := by simpa [afterCalls] using hp
  have hcall : (create wrappingBuffer).next =
      some (.foundTag, { create wrappingBuffer with
        valueState := .lazyByteArray, dataStart := 11, dataLength := -11, position := 0 }) := by
    rfl
  rw [hcall, Option.some.injEq, Prod.mk.injEq] at hnext
  obtain ⟨rfl, rfl⟩ := hnext
  simp at hprog

end MessageParser

end Streaming
