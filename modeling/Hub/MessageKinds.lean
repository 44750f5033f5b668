/-
# The kinds of a field

After `next` has found a field, `isInt` to `isDouble` tell its kind, and `stringData` and its
siblings return its bytes.  Strings and byte arrays stay in the buffer until `data` copies one
into the variant.  `next` does not clear the variant for them, and `isString` and `isByteArray`
look at the variant without asking whether it belongs to the current field.

* `agrees_of_holds` : what the accessors return while the parser holds a field;
* `next_cases` : which field `next` finds;
* `always_agrees_iff` : the accessors are right all along a run exactly when no byte array is
  found while the variant holds a string, and no string while it holds a byte array.
-/
import Hub.MessageParser
import Hub.Runs

namespace Streaming

/-! ## Fields -/

/-- The kinds that `isInt` to `isDouble` tell apart; `isInt` and `isLong` are for numbers. -/
inductive FieldKind where
  | number
  | bool
  | double
  | string
  | byteArray
  deriving DecidableEq, Repr

/-- A field: its kind, and where its bytes are when it is a string or a byte array. -/
structure Field where
  kind : FieldKind
  dataStart : ℤ := 0
  dataLength : ℤ := 0
  deriving DecidableEq, Repr

/-- The bytes of a string or a byte array, when they are all inside the buffer. -/
def Field.bytes (f : Field) (data : List UInt8) : Option (List UInt8) :=
  if 0 ≤ f.dataStart ∧ 0 ≤ f.dataLength ∧ f.dataStart + f.dataLength ≤ data.length then
    some (slice data f.dataStart.toNat (f.dataStart + f.dataLength).toNat)
  else none

namespace MessageParser

/-- The string or byte array whose length is at `pos`. -/
def blobAt? (data : List UInt8) (pos : ℕ) (kind : FieldKind) : Option Field :=
  match unserialize data pos with
  | none => none
  | some (value, newPos) =>
    if UInt64.ofNat newPos + value > UInt64.ofNat data.length then none
    else some ⟨kind, newPos, value.toUInt32.toInt32.toInt⟩

/-- The field of a type whose tag ends at `e`, if it is complete. -/
def fieldOf? (data : List UInt8) (e : ℕ) (type : ValueType) : Option Field :=
  match type with
  | .positiveNumber | .negativeNumber => (unserialize data (e + 1)).map fun _ => ⟨.number, 0, 0⟩
  | .string => blobAt? data (e + 1) .string
  | .byteArray => blobAt? data (e + 1) .byteArray
  | .boolTrue | .boolFalse => some ⟨.bool, 0, 0⟩
  | .double => if e + 1 + 8 ≤ data.length then some ⟨.double, 0, 0⟩ else none

/-- The field whose tag begins at `pos`, if it is complete. -/
def fieldAt? (data : List UInt8) (pos : ℕ) : Option Field := do
  let byte ← data[pos]?
  let e ← tagEnd? data pos byte
  let type ← ValueType.ofByte byte
  fieldOf? data e type

/-! ## The other calls -/

/-- `bytesDataBuffer`. -/
def bytesDataBuffer (p : MessageParser) : Option (List UInt8) :=
  if ¬ p.isByteArray then some [] else p.lazyData

/-- `dataLength`. -/
def dataLengthOf (p : MessageParser) : ℤ :=
  if ¬ p.isByteArray ∧ ¬ p.isString then 0 else p.dataLength

/-- `data`, which keeps what it returns in the variant.  When the bytes are not all inside the
buffer the copy throws, and nothing changes. -/
def dataCall (p : MessageParser) : MessageParser :=
  if p.valueState ≠ .valueParsed then
    match p.lazyData with
    | none => p
    | some data =>
      { p with
        value := if p.valueState = .lazyByteArray then .bytes data else .string data
        valueState := .valueParsed }
  else p

/-- What `next` leaves when it copies the bytes `tmp` of a `double` from behind the buffer. -/
def nextPast (p : MessageParser) (tmp : DoubleBits) : MessageParser :=
  let byte := p.data.getD p.position 0
  let q := { p with valueState := .valueParsed, tag := (byte >>> 3).toUInt32 }.readTag.2
  { q with value := .double tmp, position := q.position + 1 + 8 }

/-! ## What the accessors return -/

/-- **The accessors are those of the field `f`**: its kind is the only one that holds, and the
bytes are its own, or none when it has another kind. -/
structure Agrees (p : MessageParser) (f : Field) : Prop where
  number : (p.isInt = true ∨ p.isLong = true) ↔ f.kind = .number
  bool : p.isBool = true ↔ f.kind = .bool
  double : p.isDouble = true ↔ f.kind = .double
  string : p.isString = true ↔ f.kind = .string
  byteArray : p.isByteArray = true ↔ f.kind = .byteArray
  stringData : p.stringData = if f.kind = .string then f.bytes p.data else some []
  bytesData : p.bytesData = if f.kind = .byteArray then f.bytes p.data else some []
  bytesDataBuffer : p.bytesDataBuffer = if f.kind = .byteArray then f.bytes p.data else some []
  dataLength : p.dataLengthOf
    = if f.kind = .string ∨ f.kind = .byteArray then f.dataLength else 0

/-- The variant and the lazy state of a parser at the field `f`. -/
def Holds (p : MessageParser) (f : Field) : Prop :=
  match f.kind with
  | .number =>
    p.valueState = .valueParsed ∧ ((∃ v, p.value = .int32 v) ∨ ∃ v, p.value = .uint64 v)
  | .bool => p.valueState = .valueParsed ∧ ∃ v, p.value = .bool v
  | .double => p.valueState = .valueParsed ∧ ∃ v, p.value = .double v
  | .string => (p.dataStart = f.dataStart ∧ p.dataLength = f.dataLength) ∧
    ((p.valueState = .lazyString ∧ ∀ v, p.value ≠ .bytes v) ∨
      (p.valueState = .valueParsed ∧ ∃ v, f.bytes p.data = some v ∧ p.value = .string v))
  | .byteArray => (p.dataStart = f.dataStart ∧ p.dataLength = f.dataLength) ∧
    ((p.valueState = .lazyByteArray ∧ ∀ v, p.value ≠ .string v) ∨
      (p.valueState = .valueParsed ∧ ∃ v, f.bytes p.data = some v ∧ p.value = .bytes v))

theorem lazyData_eq {p : MessageParser} {f : Field} (hstart : p.dataStart = f.dataStart)
    (hlength : p.dataLength = f.dataLength) : p.lazyData = f.bytes p.data := by
  rw [lazyData, Field.bytes, hstart, hlength]
  rfl

/-- **What the accessors return** while the parser holds a field. -/
theorem agrees_of_holds {p : MessageParser} {f : Field} (h : p.Holds f) : p.Agrees f := by
  unfold Holds at h
  cases hkind : f.kind with
  | number =>
    rw [hkind] at h
    obtain ⟨hstate, ⟨v, hv⟩ | ⟨v, hv⟩⟩ := h <;>
      constructor <;>
      simp [hkind, isInt, isLong, isBool, isDouble, isString, isByteArray, stringData, bytesData,
        bytesDataBuffer, dataLengthOf, hstate, hv]
  | bool =>
    rw [hkind] at h
    obtain ⟨hstate, v, hv⟩ := h
    constructor <;>
      simp [hkind, isInt, isLong, isBool, isDouble, isString, isByteArray, stringData, bytesData,
        bytesDataBuffer, dataLengthOf, hstate, hv]
  | double =>
    rw [hkind] at h
    obtain ⟨hstate, v, hv⟩ := h
    constructor <;>
      simp [hkind, isInt, isLong, isBool, isDouble, isString, isByteArray, stringData, bytesData,
        bytesDataBuffer, dataLengthOf, hstate, hv]
  | string =>
    rw [hkind] at h
    obtain ⟨⟨hstart, hlength⟩, ⟨hstate, hv⟩ | ⟨hstate, v, hbytes, hv⟩⟩ := h
    · have hdata := lazyData_eq hstart hlength
      have hnot : p.isByteArray = false := by
        unfold isByteArray
        rw [hstate]
        cases hvalue : p.value with
        | bytes v => exact absurd hvalue (hv v)
        | _ => rfl
      constructor <;>
        simp [hkind, isInt, isLong, isBool, isDouble, isString, stringData, bytesDataBuffer,
          dataLengthOf, hstate, hdata, hnot, hlength]
      unfold bytesData
      cases hvalue : p.value with
      | bytes v => exact absurd hvalue (hv v)
      | _ => simp [hstate]
    · constructor <;>
        simp [hkind, isInt, isLong, isBool, isDouble, isString, isByteArray, stringData, bytesData,
          bytesDataBuffer, dataLengthOf, hstate, hbytes, hv, hlength]
  | byteArray =>
    rw [hkind] at h
    obtain ⟨⟨hstart, hlength⟩, ⟨hstate, hv⟩ | ⟨hstate, v, hbytes, hv⟩⟩ := h
    · have hdata := lazyData_eq hstart hlength
      have hnot : p.isString = false := by
        unfold isString
        rw [hstate]
        cases hvalue : p.value with
        | string v => exact absurd hvalue (hv v)
        | _ => rfl
      constructor <;>
        simp [hkind, isInt, isLong, isBool, isDouble, isByteArray, bytesData, bytesDataBuffer,
          dataLengthOf, hstate, hdata, hnot, hlength]
      unfold stringData
      cases hvalue : p.value with
      | string v => exact absurd hvalue (hv v)
      | _ => simp [hstate]
    · have hdata := lazyData_eq hstart hlength
      constructor <;>
        simp [hkind, isInt, isLong, isBool, isDouble, isString, isByteArray, stringData, bytesData,
          bytesDataBuffer, dataLengthOf, hstate, hbytes, hv, hlength, hdata]

/-! ## The calls -/

/-- `data` keeps the field. -/
theorem holds_dataCall {p : MessageParser} {f : Field} (h : p.Holds f) : p.dataCall.Holds f := by
  unfold dataCall
  by_cases hparsed : p.valueState = .valueParsed
  · rw [if_neg (not_not.mpr hparsed)]
    exact h
  · rw [if_pos hparsed]
    cases hlazy : p.lazyData with
    | none => exact h
    | some data =>
      unfold Holds at h ⊢
      cases hkind : f.kind with
      | number | bool | double =>
        rw [hkind] at h
        exact absurd h.1 hparsed
      | string | byteArray =>
        rw [hkind] at h
        obtain ⟨⟨hstart, hlength⟩, ⟨hstate, -⟩ | ⟨hstate, -⟩⟩ := h
        · have hbytes : f.bytes p.data = some data := (lazyData_eq hstart hlength).symm.trans hlazy
          refine ⟨⟨hstart, hlength⟩, .inr ⟨rfl, data, hbytes, ?_⟩⟩
          rw [hstate]
          rfl
        · exact absurd hstate hparsed

/-- The variant belongs to an earlier field of the other kind. -/
def Stale (value : Variant) (kind : FieldKind) : Prop :=
  match value, kind with
  | .string _, .byteArray => True
  | .bytes _, .string => True
  | _, _ => False

instance (value : Variant) (kind : FieldKind) : Decidable (Stale value kind) := by
  unfold Stale
  split <;> infer_instance

/-- `p'` is `p` after it has found `f`. -/
def Finds (p p' : MessageParser) (f : Field) : Prop :=
  p'.data = p.data ∧
  match f.kind with
  | .string => p'.valueState = .lazyString ∧ p'.dataStart = f.dataStart ∧
    p'.dataLength = f.dataLength ∧ p'.value = p.value
  | .byteArray => p'.valueState = .lazyByteArray ∧ p'.dataStart = f.dataStart ∧
    p'.dataLength = f.dataLength ∧ p'.value = p.value
  | _ => p'.Holds f

/-- A string or a byte array is found. -/
theorem readBlob_cases (p : MessageParser) (type : ValueType) (kind : FieldKind) :
    match blobAt? p.data (p.position + 1) kind with
    | none => ∃ p', p.readBlob type = (.error, p')
    | some f => f.kind = kind ∧ ∃ p', p.readBlob type = (.foundTag, p') ∧ p'.data = p.data ∧
      p'.valueState = (if type = .byteArray then .lazyByteArray else .lazyString) ∧
      p'.dataStart = f.dataStart ∧ p'.dataLength = f.dataLength ∧ p'.value = p.value := by
  unfold blobAt? readBlob
  cases unserialize p.data (p.position + 1) with
  | none => exact ⟨p, rfl⟩
  | some r =>
    obtain ⟨value, newPos⟩ := r
    have hlength : p.length = p.data.length := rfl
    simp only [hlength]
    by_cases hmore : UInt64.ofNat newPos + value > UInt64.ofNat p.data.length
    · rw [if_pos hmore, if_pos hmore]
      exact ⟨p, rfl⟩
    · rw [if_neg hmore, if_neg hmore]
      exact ⟨rfl, _, rfl, rfl, rfl, rfl, rfl, rfl⟩

/-- The `switch` of `next`, for the type of a field whose tag ends at `q.position`. -/
theorem readValue_cases (q : MessageParser) (hstate : q.valueState = .valueParsed)
    (type : ValueType) :
    match fieldOf? q.data q.position type with
    | none => q.readValue (some type) = none ∨
        ∃ r p', q.readValue (some type) = some (r, p') ∧ r ≠ .foundTag
    | some f => ∃ p', q.readValue (some type) = some (.foundTag, p') ∧ q.Finds p' f := by
  have hnumber : ∀ type,
      match (unserialize q.data (q.position + 1)).map fun _ => (⟨.number, 0, 0⟩ : Field) with
      | none => some (q.readNumber type) = none ∨
          ∃ r p', some (q.readNumber type) = some (r, p') ∧ r ≠ .foundTag
      | some f => ∃ p', some (q.readNumber type) = some (.foundTag, p') ∧ q.Finds p' f := by
    intro type
    unfold readNumber
    cases unserialize q.data (q.position + 1) with
    | none => exact .inr ⟨_, _, rfl, ParsedType.noConfusion⟩
    | some r =>
      refine ⟨_, rfl, rfl, hstate, ?_⟩
      show (∃ v, numberValue type r.1 = .int32 v) ∨ ∃ v, numberValue type r.1 = .uint64 v
      unfold numberValue
      split_ifs
      · exact .inl ⟨_, rfl⟩
      · exact .inl ⟨_, rfl⟩
      · exact .inr ⟨_, rfl⟩
  have hblob : ∀ type kind, (kind = .string ∧ type ≠ .byteArray) ∨
      (kind = .byteArray ∧ type = .byteArray) →
      match blobAt? q.data (q.position + 1) kind with
      | none => some (q.readBlob type) = none ∨
          ∃ r p', some (q.readBlob type) = some (r, p') ∧ r ≠ .foundTag
      | some f => ∃ p', some (q.readBlob type) = some (.foundTag, p') ∧ q.Finds p' f := by
    intro type kind hkind
    have hcases := q.readBlob_cases type kind
    cases hblob : blobAt? q.data (q.position + 1) kind with
    | none =>
      rw [hblob] at hcases
      obtain ⟨p', hread⟩ := hcases
      exact .inr ⟨.error, p', congrArg some hread, ParsedType.noConfusion⟩
    | some f =>
      rw [hblob] at hcases
      obtain ⟨hf, p', hread, hdata, hlazy, hstart, hlength, hvalue⟩ := hcases
      refine ⟨p', congrArg some hread, hdata, ?_⟩
      rcases hkind with ⟨rfl, htype⟩ | ⟨rfl, htype⟩
      · rw [if_neg htype] at hlazy
        simp only [hf]
        exact ⟨hlazy, hstart, hlength, hvalue⟩
      · rw [if_pos htype] at hlazy
        simp only [hf]
        exact ⟨hlazy, hstart, hlength, hvalue⟩
  cases type with
  | positiveNumber => exact hnumber _
  | negativeNumber => exact hnumber _
  | string => exact hblob _ _ (.inl ⟨rfl, by decide⟩)
  | byteArray => exact hblob _ _ (.inr ⟨rfl, rfl⟩)
  | boolTrue => exact ⟨_, rfl, rfl, hstate, true, rfl⟩
  | boolFalse => exact ⟨_, rfl, rfl, hstate, false, rfl⟩
  | double =>
    have hsome := readDouble?_isSome q.data (q.position + 1)
    simp only [fieldOf?]
    split_ifs with hfit
    · obtain ⟨tmp, htmp⟩ := Option.isSome_iff_exists.mp (hsome.mpr hfit)
      refine ⟨{ q with value := .double tmp, position := q.position + 1 + 8 }, ?_, rfl, hstate, tmp,
        rfl⟩
      simp only [readValue, htmp]
      rfl
    · left
      have hnone : readDouble? q.data (q.position + 1) = none := by
        rw [← Option.not_isSome_iff_eq_none, hsome]
        exact hfit
      simp only [readValue, hnone]
      rfl

/-- **Which field `next` finds**, if any. -/
theorem next_cases (p : MessageParser) :
    match fieldAt? p.data p.position with
    | none => p.next = none ∨ ∃ r p', p.next = some (r, p') ∧ r ≠ .foundTag
    | some f => ∃ p', p.next = some (.foundTag, p') ∧ p.Finds p' f := by
  unfold fieldAt? next
  by_cases hend : p.length ≤ p.position
  · have hnone : p.data[p.position]? = none := List.getElem?_eq_none hend
    rw [if_pos hend, hnone]
    exact .inr ⟨_, _, rfl, ParsedType.noConfusion⟩
  · have hlt : p.position < p.data.length := not_le.mp hend
    obtain ⟨byte, hbyte⟩ : ∃ byte, p.data[p.position]? = some byte :=
      ⟨_, List.getElem?_eq_getElem hlt⟩
    rw [if_neg hend, hbyte]
    have htag := readTag_spec { p with valueState := .valueParsed, tag := (byte >>> 3).toUInt32 }
      byte (not_le.mp hend) rfl
    have hdata : ({ p with valueState := .valueParsed, tag := (byte >>> 3).toUInt32 }
        : MessageParser).data = p.data := rfl
    simp only [Option.bind_eq_bind, Option.bind_some]
    rw [hdata] at htag
    cases hend : tagEnd? p.data p.position byte with
    | none =>
      rw [hend] at htag
      obtain ⟨p', hread, -⟩ := htag
      simp only [hread]
      exact .inr ⟨_, _, rfl, ParsedType.noConfusion⟩
    | some e =>
      rw [hend] at htag
      obtain ⟨tag, hread⟩ := htag
      simp only [hread, Option.bind_some]
      cases htype : ValueType.ofByte byte with
      | none => exact .inr ⟨_, _, rfl, ParsedType.noConfusion⟩
      | some type =>
        exact readValue_cases { p with valueState := .valueParsed, tag := tag, position := e } rfl type

/-- A field that is found is held, unless the variant is stale. -/
theorem Finds.holds {p p' : MessageParser} {f : Field} (h : p.Finds p' f)
    (hstale : ¬ Stale p.value f.kind) : p'.Holds f := by
  obtain ⟨-, h⟩ := h
  unfold Holds
  cases hkind : f.kind with
  | number =>
    rw [hkind, Holds, hkind] at h
    exact h
  | bool =>
    rw [hkind, Holds, hkind] at h
    exact h
  | double =>
    rw [hkind, Holds, hkind] at h
    exact h
  | string =>
    rw [hkind] at h hstale
    obtain ⟨hstate, hstart, hlength, hvalue⟩ := h
    refine ⟨⟨hstart, hlength⟩, .inl ⟨hstate, fun v hv => hstale ?_⟩⟩
    rw [← hvalue, hv]
    trivial
  | byteArray =>
    rw [hkind] at h hstale
    obtain ⟨hstate, hstart, hlength, hvalue⟩ := h
    refine ⟨⟨hstart, hlength⟩, .inl ⟨hstate, fun v hv => hstale ?_⟩⟩
    rw [← hvalue, hv]
    trivial

/-- With a stale variant the field is both a string and a byte array. -/
theorem Finds.not_agrees {p p' : MessageParser} {f : Field} (h : p.Finds p' f)
    (hstale : Stale p.value f.kind) : ¬ p'.Agrees f := by
  obtain ⟨-, h⟩ := h
  intro hagrees
  have hstring := hagrees.string
  have hbyteArray := hagrees.byteArray
  cases hkind : f.kind with
  | string =>
    rw [hkind] at h hstale hbyteArray
    cases hvalue : p.value with
    | bytes v =>
      have hboth : p'.isByteArray = true := by
        rw [isByteArray, h.2.2.2, hvalue]
        exact Bool.or_true _
      exact absurd (hbyteArray.mp hboth) (by decide)
    | _ =>
      rw [hvalue] at hstale
      exact hstale
  | byteArray =>
    rw [hkind] at h hstale hstring
    cases hvalue : p.value with
    | string v =>
      have hboth : p'.isString = true := by
        rw [isString, h.2.2.2, hvalue]
        exact Bool.or_true _
      exact absurd (hstring.mp hboth) (by decide)
    | _ =>
      rw [hvalue] at hstale
      exact hstale
  | _ =>
    rw [hkind] at hstale
    unfold Stale at hstale
    split at hstale <;> simp_all

end MessageParser

/-! ## Runs -/

namespace ParserRun

/-- A call that changes the parser.  `next` comes with the bytes that a copy from behind the
buffer finds there. -/
inductive Call where
  | next (past : DoubleBits)
  | data

/-- The parser, and the field that the last `next` has found. -/
structure State where
  parser : MessageParser
  field : Option Field

/-- A parser that is new. -/
def initial (buffer : ConstBuffer) : State := ⟨MessageParser.create buffer, none⟩

/-- One call. -/
def call (s : State) : Call → State
  | .data => { s with parser := s.parser.dataCall }
  | .next past =>
    match s.parser.next with
    | none => ⟨s.parser.nextPast past, some ⟨.double, 0, 0⟩⟩
    | some (.foundTag, p) => ⟨p, MessageParser.fieldAt? s.parser.data s.parser.position⟩
    | some (_, p) => ⟨p, none⟩

/-- The calls as steps of a system. -/
def step (s : State) (c : Call) : Option State := some (call s c)

/-- The accessors are those of the field that was found last. -/
def Agrees (s : State) : Prop := ∀ f, s.field = some f → s.parser.Agrees f

/-- The parser holds the field that was found last. -/
def Holds (s : State) : Prop := ∀ f, s.field = some f → s.parser.Holds f

/-- `next` does not find a byte array while the variant holds a string, nor a string while it
holds a byte array. -/
def Careful (s : State) : Call → Prop
  | .data => True
  | .next _ => ∀ f, MessageParser.fieldAt? s.parser.data s.parser.position = some f →
      ¬ MessageParser.Stale s.parser.value f.kind

/-- **One call.** -/
theorem holds_call {s : State} (h : Holds s) {c : Call} (hc : Careful s c) : Holds (call s c) := by
  intro f hf
  cases c with
  | data => exact MessageParser.holds_dataCall (h f hf)
  | next past =>
    have hcases := s.parser.next_cases
    unfold call at hf ⊢
    cases hfield : MessageParser.fieldAt? s.parser.data s.parser.position with
    | some g =>
      rw [hfield] at hcases
      obtain ⟨p', hnext, hfinds⟩ := hcases
      simp only [hnext, hfield] at hf ⊢
      obtain rfl := Option.some.inj hf
      exact hfinds.holds (hc g hfield)
    | none =>
      rw [hfield] at hcases
      rcases hcases with hnext | ⟨r, p', hnext, hr⟩
      · simp only [hnext] at hf ⊢
        obtain rfl := Option.some.inj hf
        have hstate : (s.parser.nextPast past).valueState = .valueParsed := by
          unfold MessageParser.nextPast MessageParser.readTag
          simp only
          split_ifs
          · split
            · rfl
            · split_ifs <;> rfl
          · rfl
        exact ⟨hstate, past, rfl⟩
      · simp only [hnext] at hf
        cases r with
        | foundTag => exact absurd rfl hr
        | endOfDocument => cases hf
        | error => cases hf

/-- A call that is not careful. -/
theorem not_agrees_call {s : State} {c : Call} (hc : ¬ Careful s c) : ¬ Agrees (call s c) := by
  cases c with
  | data => exact absurd trivial hc
  | next past =>
    intro hagrees
    refine hc fun f hf hstale => ?_
    have hcases := s.parser.next_cases
    rw [hf] at hcases
    obtain ⟨p', hnext, hfinds⟩ := hcases
    refine hfinds.not_agrees hstale ?_
    have hfound := hagrees f
    unfold call at hfound
    simp only [hnext] at hfound
    exact hfound hf

/-- **The kinds of a field.**  Whatever is called on a parser in whatever order, the accessors
are right after every call if and only if no `next` finds a byte array while the variant holds a
string of an earlier field, or a string while it holds a byte array. -/
theorem always_agrees_iff (buffer : ConstBuffer) (calls : List Call) :
    Runs.Always step Agrees (initial buffer) calls
      ↔ Runs.Each step Careful (initial buffer) calls := by
  refine Runs.always_iff_each (I := Holds) (L := fun _ _ => True) ?_ ?_ ?_ calls _ ?_ ?_
  · exact fun s h f hf => MessageParser.agrees_of_holds (h f hf)
  · exact fun s c h _ hc => ⟨call s c, rfl, holds_call h hc⟩
  · intro s c s' _ _ hc hstep
    obtain rfl := Option.some.inj hstep
    exact not_agrees_call hc
  · intro f hf
    cases hf
  · exact Runs.each_of_forall (fun _ _ => trivial) calls _

/-- A string and a byte array of a byte each. -/
def twoFields : ConstBuffer where
  bytes := [10, 1, 65, 19, 1, 66]
  size_lt := by decide

/-- After `data` on the string, the byte array is a string as well. -/
theorem not_always_agrees_twoFields :
    ¬ ∀ (buffer : ConstBuffer) (calls : List Call),
      Runs.Always step Agrees (initial buffer) calls := by
  intro h
  have hrun := h twoFields [.next ⟨List.replicate 8 0, rfl⟩, .data, .next ⟨List.replicate 8 0, rfl⟩]
  obtain ⟨-, s₁, hs₁, -, s₂, hs₂, -, s₃, hs₃, hagrees⟩ := hrun
  obtain rfl := Option.some.inj hs₁
  obtain rfl := Option.some.inj hs₂
  obtain rfl := Option.some.inj hs₃
  have hstring := (hagrees ⟨.byteArray, 5, 1⟩ rfl).string
  exact absurd (hstring.mp rfl) (by decide)

end ParserRun

end Streaming
