/-
# Building and parsing a message

A message without header that is built field by field and then parsed gives back
the same fields: the parser finds each of them once, in order, with its tag, its
kind and its value, and then the end of the document (`yields_build`).

The two files of the source meet in the wire format.  `unserialize_serialize`
joins the variable-length integers, `next_wire` one whole field.
-/
import Hub.MessageParser

namespace Streaming

/-! ## Numbers -/

theorem getElem?_of_drop_eq_cons {data tail : List UInt8} {pos : ℕ} {byte : UInt8}
    (h : data.drop pos = byte :: tail) :
    data[pos]? = some byte ∧ data.drop (pos + 1) = tail := by
  constructor
  · rw [← List.head?_drop, h]
    rfl
  · rw [← List.tail_drop, h]
    rfl

/-- One step of the reader adds a digit at the low end. -/
theorem shift_or_eq_ofNat (n : ℕ) {d : ℕ} (hd : d < 128) {byte : UInt8}
    (hbyte : (byte &&& 0x7F).toNat = d) :
    (UInt64.ofNat n <<< 7) ||| (byte &&& 0x7F).toUInt64 = UInt64.ofNat (n * 128 + d) := by
  apply UInt64.toNat_inj.mp
  have hlow : n % 2 ^ 64 * 128 % 2 ^ 64 = 2 ^ 7 * (n % 2 ^ 57) := by omega
  rw [UInt64.toNat_or, UInt64.toNat_shiftLeft, UInt8.toNat_toUInt64, hbyte,
    UInt64.toNat_ofNat', UInt64.toNat_ofNat']
  show (n % 2 ^ 64) <<< 7 % 2 ^ 64 ||| d = _
  rw [Nat.shiftLeft_eq, show (2 : ℕ) ^ 7 = 128 from rfl, hlow,
    ← Nat.two_pow_add_eq_or_of_lt (by omega : d < 2 ^ 7)]
  omega

theorem continued_byte {d : ℕ} (hd : d < 128) :
    (UInt8.ofNat (d + 128) &&& 0x7F).toNat = d ∧ UInt8.ofNat (d + 128) &&& 0x80 ≠ 0 := by
  have hall : ∀ d < 128, (UInt8.ofNat (d + 128) &&& 0x7F).toNat = d ∧
      UInt8.ofNat (d + 128) &&& 0x80 ≠ 0 := by decide
  exact hall d hd

theorem last_byte {d : ℕ} (hd : d < 128) :
    (UInt8.ofNat d &&& 0x7F).toNat = d ∧ ¬ UInt8.ofNat d &&& 0x80 ≠ 0 := by
  have hall : ∀ d < 128, (UInt8.ofNat d &&& 0x7F).toNat = d ∧
      ¬ UInt8.ofNat d &&& 0x80 ≠ 0 := by decide
  exact hall d hd

/-- The reader on the digits `ds`, all continued, and the last digit `d`. -/
theorem unserializeLoop_digits (data rest : List UInt8) {d : ℕ} (hd : d < 128) :
    ∀ (ds : List ℕ) (fuel pos n : ℕ), (∀ x ∈ ds, x < 128) → ds.length < fuel →
      data.drop pos = ds.map (fun x => UInt8.ofNat (x + 128)) ++ UInt8.ofNat d :: rest →
      unserializeLoop data fuel pos (UInt64.ofNat n)
        = some (UInt64.ofNat (ds.foldl (fun acc x => acc * 128 + x + 1) n * 128 + d),
            pos + ds.length + 1) := by
  intro ds
  induction ds with
  | nil =>
    intro fuel pos n _ hfuel hdrop
    obtain ⟨fuel, rfl⟩ : ∃ k, fuel = k + 1 := ⟨fuel - 1, by simp at hfuel; omega⟩
    obtain ⟨hbyte, -⟩ := getElem?_of_drop_eq_cons hdrop
    obtain ⟨hval, hlast⟩ := last_byte hd
    simp only [unserializeLoop, hbyte, if_neg hlast, shift_or_eq_ofNat n hd hval]
    rfl
  | cons x ds ih =>
    intro fuel pos n hlt hfuel hdrop
    obtain ⟨fuel, rfl⟩ : ∃ k, fuel = k + 1 := ⟨fuel - 1, by simp at hfuel; omega⟩
    obtain ⟨hbyte, htail⟩ := getElem?_of_drop_eq_cons hdrop
    have hx : x < 128 := hlt x (by simp)
    obtain ⟨hval, hcont⟩ := continued_byte hx
    have hnext : UInt64.ofNat (n * 128 + x) + 1 = UInt64.ofNat (n * 128 + x + 1) :=
      (UInt64.ofNat_add (n * 128 + x) 1).symm
    simp only [unserializeLoop, hbyte, if_pos hcont, shift_or_eq_ofNat n hx hval, hnext]
    rw [ih fuel (pos + 1) _ (fun y hy => hlt y (by simp [hy]))
      (by simp only [List.length_cons] at hfuel; omega) htail]
    simp only [List.foldl_cons, List.length_cons]
    congr 2
    omega

/-- `serialize` in reading order: continued digits, then the last one. -/
theorem exists_serialize_digits (value : UInt64) :
    ∃ (ds : List ℕ) (d : ℕ), (∀ x ∈ ds, x < 128) ∧ d < 128 ∧ ds.length < 10 ∧
      ds.foldl (fun acc x => acc * 128 + x + 1) 0 * 128 + d = value.toNat ∧
      serialize value = ds.map (fun x => UInt8.ofNat (x + 128)) ++ [UInt8.ofNat d] := by
  have hlt := BijectiveBase.lt_of_mem_digits (b := 128) (by omega) value.toNat
  have hof := BijectiveBase.ofDigits_digits (b := 128) (by omega) value.toNat
  have hlen := BijectiveBase.length_digits_le (b := 128) (by omega) 9 value.toNat
    (lt_trans value.toNat_lt (by decide))
  have hser := serialize_eq value
  cases hdig : BijectiveBase.digits 128 value.toNat with
  | nil => exact absurd hdig (BijectiveBase.digits_ne_nil 128 _)
  | cons d ds =>
    rw [hdig] at hlt hof hlen hser
    refine ⟨ds.reverse, d, ?_, hlt d (by simp), ?_, ?_, ?_⟩
    · intro x hx
      exact hlt x (List.mem_cons_of_mem d (List.mem_reverse.mp hx))
    · rw [List.length_reverse]
      simp only [List.length_cons] at hlen
      omega
    · rw [BijectiveBase.foldl_reverse_eq_ofDigits]
      rw [BijectiveBase.ofDigits] at hof
      omega
    · rw [hser, List.mapIdx_cons, List.reverse_cons, List.map_reverse]
      congr 2
      apply List.ext_getElem
      · simp
      · intro i h1 h2
        simp [digitByte]

/-- **Numbers come back.** -/
theorem unserialize_serialize (value : UInt64) {data rest : List UInt8} {pos : ℕ}
    (h : data.drop pos = serialize value ++ rest) :
    unserialize data pos = some (value, pos + (serialize value).length) := by
  obtain ⟨ds, d, hds, hd, hlen, hval, hser⟩ := exists_serialize_digits value
  rw [hser, List.append_assoc, List.singleton_append] at h
  rw [unserialize, hser]
  have hloop := unserializeLoop_digits data rest hd ds 10 pos 0 hds hlen h
  rw [hval, UInt64.ofNat_toNat] at hloop
  rw [show (0 : UInt64) = UInt64.ofNat 0 from rfl, hloop]
  simp [Nat.add_assoc]

/-! ## Tags -/

/-- The byte of a short tag, taken apart again. -/
theorem short_tag_byte (type : ValueType) : ∀ n < 31,
    (((UInt8.ofNat n <<< 3) + type.code) >>> 3).toNat = n ∧
      ValueType.ofByte ((UInt8.ofNat n <<< 3) + type.code) = some type := by
  cases type <;> decide

/-- The byte in front of a long tag. -/
theorem long_tag_byte (type : ValueType) :
    (type.code ||| 0xF8) >>> 3 = 31 ∧ ValueType.ofByte (type.code ||| 0xF8) = some type := by
  cases type <;> decide

/-- A tag that fits in 32 bits is not too large, and is read back unchanged. -/
theorem long_tag_value (tag : UInt32) :
    ¬ tag.toUInt64 > 0xFFFFFFFF ∧ tag.toUInt64.toUInt32 = tag := by
  constructor
  · rw [gt_iff_lt, UInt64.lt_iff_toNat_lt, UInt32.toNat_toUInt64]
    have := tag.toNat_lt
    show ¬ 4294967295 < tag.toNat
    omega
  · apply UInt32.toNat_inj.mp
    rw [UInt64.toNat_toUInt32, UInt32.toNat_toUInt64, Nat.mod_eq_of_lt tag.toNat_lt]

theorem writeTag_length_pos (tag : UInt32) (type : ValueType) :
    0 < (writeTag tag type).length := by
  unfold writeTag
  split <;> simp

namespace MessageParser

/-- A parser in front of a field is not at the end of its buffer. -/
theorem position_lt_of_writeTag {p : MessageParser} {tag : UInt32} {type : ValueType}
    {rest : List UInt8} (h : p.data.drop p.position = writeTag tag type ++ rest) :
    p.position < p.length := by
  by_contra hc
  have hnil : p.data.drop p.position = [] := List.drop_eq_nil_of_le (not_lt.mp hc)
  have hpos := writeTag_length_pos tag type
  have hlen := congrArg List.length (hnil.symm.trans h)
  rw [List.length_append, List.length_nil] at hlen
  omega

theorem readTag_of_ne {p : MessageParser} (h : p.tag ≠ 31) : p.readTag = (true, p) := by
  rw [readTag, if_neg h]

theorem readTag_of_eq {p : MessageParser} {tag : UInt64} {pos : ℕ} (h : p.tag = 31)
    (hnum : unserialize p.data (p.position + 1) = some (tag, pos)) (hsmall : ¬ tag > 0xFFFFFFFF) :
    p.readTag = (true, { p with position := pos - 1, tag := tag.toUInt32 }) := by
  rw [readTag, if_pos h, hnum]
  simp only [if_neg hsmall]

/-- **The type and tag of a field.**  Over bytes that `write` produced, `next` goes on
to the value with the right tag and type, at the last byte of the tag. -/
theorem next_of_writeTag (p : MessageParser) {tag : UInt32} {type : ValueType}
    {rest : List UInt8} (h : p.data.drop p.position = writeTag tag type ++ rest) :
    p.next = ({ p with
      valueState := .valueParsed
      tag := tag
      position := p.position + (writeTag tag type).length - 1 } : MessageParser).readValue
        (some type) := by
  have hlt : ¬ p.length ≤ p.position := not_le.mpr (position_lt_of_writeTag h)
  by_cases hlong : tag ≥ 31
  · obtain ⟨hshift, htype⟩ := long_tag_byte type
    obtain ⟨hsmall, hback⟩ := long_tag_value tag
    rw [writeTag, if_pos hlong] at h ⊢
    obtain ⟨hbyte, htail⟩ := getElem?_of_drop_eq_cons h
    have hnum := unserialize_serialize tag.toUInt64 htail
    rw [next, if_neg hlt]
    simp only [hbyte, Option.bind_eq_bind, Option.bind_some, hshift, htype]
    have hread := readTag_of_eq
      (p := { p with valueState := .valueParsed, tag := UInt8.toUInt32 31 }) rfl hnum hsmall
    rw [hread]
    simp only [hback, List.length_cons]
    congr 2
    omega
  · rw [ge_iff_le, UInt32.le_iff_toNat_le] at hlong
    change ¬ 31 ≤ tag.toNat at hlong
    obtain ⟨hshift, htype⟩ := short_tag_byte type tag.toNat (by omega)
    have hcast : tag.toUInt8 = UInt8.ofNat tag.toNat := by
      apply UInt8.toNat_inj.mp
      rw [UInt32.toNat_toUInt8, UInt8.toNat_ofNat']
    rw [writeTag, if_neg (by rw [ge_iff_le, UInt32.le_iff_toNat_le]; exact hlong), hcast] at h ⊢
    obtain ⟨hbyte, -⟩ := getElem?_of_drop_eq_cons h
    have htag : ((UInt8.ofNat tag.toNat <<< 3 + type.code) >>> 3).toUInt32 = tag := by
      apply UInt32.toNat_inj.mp
      rw [UInt8.toNat_toUInt32, hshift]
    have hne : tag ≠ 31 := by
      rintro rfl
      exact hlong le_rfl
    rw [next, if_neg hlt]
    simp only [hbyte, Option.bind_eq_bind, Option.bind_some, htype, htag]
    rw [readTag_of_ne hne]
    rfl

/-! ## Values -/

/-- Which kind a field is: number, bool, double, string, byte array. -/
def kinds (p : MessageParser) : List Bool :=
  [p.isInt || p.isLong, p.isBool, p.isDouble, p.isString, p.isByteArray]

/-- The parser presents the field `f`: its tag, its kind and no other, and its value
through the accessor of that kind. -/
def Reads (p : MessageParser) (f : MessageField) : Prop :=
  p.tag = f.tag ∧
  match f.value with
  | .uint64 v => p.kinds = [true, false, false, false, false] ∧ p.longData = v
  | .int32 v => p.kinds = [true, false, false, false, false] ∧ p.intData = v
  | .bool v => p.kinds = [false, true, false, false, false] ∧ p.boolData = v
  | .double v => p.kinds = [false, false, true, false, false] ∧ p.doubleData = v
  | .string v => p.kinds = [false, false, false, true, false] ∧ p.stringData = some v
  | .bytes v => p.kinds = [false, false, false, false, true] ∧ p.bytesData = some v

/-- The parser's value is not a string or byte array that `data()` left behind. -/
def Plain (p : MessageParser) : Prop :=
  match p.value with
  | .string _ | .bytes _ => False
  | _ => True

theorem plain_of_numberValue {p : MessageParser} (type : ValueType) (v : UInt64)
    (h : p.value = numberValue type v) : p.Plain := by
  rw [Plain, h]
  unfold numberValue
  by_cases hneg : type = .negativeNumber
  · simp only [if_pos hneg]
  · by_cases hsmall : v < 0x7FFFFFFF
    · simp only [if_neg hneg, if_pos hsmall]
    · simp only [if_neg hneg, if_neg hsmall]

/-- The low 32 bits of a 64-bit number, as a signed number. -/
theorem toInt_toInt32 (w : UInt64) : w.toUInt32.toInt32.toInt = (w.toNat : ℤ).bmod (2 ^ 32) := by
  show w.toUInt32.toBitVec.toInt = _
  rw [BitVec.toInt_eq_toNat_bmod]
  show ((w.toUInt32.toNat : ℕ) : ℤ).bmod (2 ^ 32) = _
  rw [UInt64.toNat_toUInt32]
  exact_mod_cast Int.emod_bmod (w.toNat : ℤ) (2 ^ 32)

/-- A number below `0x7FFFFFFF` that is kept as an `int32` keeps its value. -/
theorem longData_small {v : UInt64} (h : v.toNat < 0x7FFFFFFF) :
    v.toUInt32.toInt32.toInt64.toUInt64 = v := by
  apply UInt64.toNat_inj.mp
  rw [toNat_toUInt64, Int32.toInt_toInt64, toInt_toInt32, Int.bmod_eq_of_le] <;> omega

/-- `int32` values survive the trip through a magnitude, `INT_MIN` included. -/
theorem intData_magnitude (v : Int32) :
    (v ≥ 0 → (int32Magnitude v).toUInt32.toInt32 = v) ∧
      (¬ v ≥ 0 → (int32Magnitude v * -1).toUInt32.toInt32 = v) := by
  have hlo := v.le_toInt
  have hhi := v.toInt_lt
  have hmag := toNat_int32Magnitude v
  have hge : v ≥ 0 ↔ 0 ≤ v.toInt := Int32.le_iff_toInt_le
  constructor
  · intro h
    have hpos := hge.mp h
    apply Int32.toInt_inj.mp
    rw [toInt_toInt32, hmag, Int.bmod_eq_of_le] <;> omega
  · intro h
    have hneg : v.toInt < 0 := by
      by_contra hc
      exact h (hge.mpr (by omega))
    apply Int32.toInt_inj.mp
    have hmul : (int32Magnitude v * -1).toNat = 2 ^ 64 - v.toInt.natAbs := by
      rw [UInt64.toNat_mul, hmag]
      show v.toInt.natAbs * (2 ^ 64 - 1) % 2 ^ 64 = _
      omega
    rw [toInt_toInt32, hmul, Int.bmod_def]
    split <;> omega

/-! ## Fields -/

/-- Behind the tag of the field, the value begins. -/
theorem drop_after_tag {p : MessageParser} {tag : UInt32} {type : ValueType}
    {rest : List UInt8} (h : p.data.drop p.position = writeTag tag type ++ rest) :
    p.data.drop (p.position + (writeTag tag type).length - 1 + 1) = rest := by
  have hne := writeTag_length_pos tag type
  rw [show p.position + (writeTag tag type).length - 1 + 1
    = p.position + (writeTag tag type).length from by omega, ← List.drop_drop, h, List.drop_left]

/-- A number field. -/
theorem next_number {p : MessageParser} {tag : UInt32} {type : ValueType} {v : UInt64}
    {rest : List UInt8} (htype : type = .positiveNumber ∨ type = .negativeNumber)
    (h : p.data.drop p.position = writeTag tag type ++ serialize v ++ rest) :
    p.next = some (.foundTag, { p with
      valueState := .valueParsed
      tag := tag
      value := numberValue type v
      position := p.position + (writeTag tag type ++ serialize v).length }) := by
  rw [List.append_assoc] at h
  have hdrop := drop_after_tag h
  have hne := writeTag_length_pos tag type
  have hnum := unserialize_serialize v hdrop
  rw [p.next_of_writeTag h]
  rcases htype with rfl | rfl
  all_goals
    simp only [readValue, readNumber]
    erw [hnum]
    simp only [List.length_append]
    congr 3
    omega

/-- A string or byte array field whose bytes are all in the buffer. -/
theorem next_blob {p : MessageParser} {tag : UInt32} {type : ValueType} {len : UInt64}
    {v rest : List UInt8} (htype : type = .string ∨ type = .byteArray)
    (hlen : len.toNat = v.length) (hshort : v.length < 2 ^ 31)
    (h : p.data.drop p.position = writeTag tag type ++ serialize len ++ v ++ rest) :
    ∃ p', p.next = some (.foundTag, p') ∧ p'.buffer = p.buffer ∧ p'.value = p.value ∧
      p'.tag = tag ∧
      p'.valueState = (if type = .byteArray then .lazyByteArray else .lazyString) ∧
      p'.position = p.position + (writeTag tag type ++ serialize len ++ v).length ∧
      p'.lazyData = some v := by
  have htotal : p.length
      = p.position + (writeTag tag type ++ serialize len ++ v ++ rest).length := by
    have hlt := position_lt_of_writeTag
      (h.trans (by rw [List.append_assoc, List.append_assoc]))
    rw [← h, List.length_drop]
    show p.length = p.position + (p.length - p.position)
    omega
  have hsize : p.length < 2 ^ 31 := p.buffer.size_lt
  have htag := writeTag_length_pos tag type
  rw [List.append_assoc, List.append_assoc] at h
  have hdrop := drop_after_tag h
  have hnum := unserialize_serialize len hdrop
  set newPos := p.position + (writeTag tag type).length - 1 + 1 + (serialize len).length
    with hnew
  simp only [List.length_append] at htotal
  have hpos : (UInt64.ofNat newPos + len).toNat = newPos + v.length := by
    rw [toNat_ofNat_add (by omega), hlen, Nat.mod_eq_of_lt (by omega)]
  have hfit : ¬ UInt64.ofNat newPos + len > UInt64.ofNat p.length := by
    rw [gt_iff_lt, UInt64.lt_iff_toNat_lt, hpos, UInt64.toNat_ofNat',
      Nat.mod_eq_of_lt (by omega)]
    omega
  have hdata : p.data.drop newPos = v ++ rest := by
    rw [hnew, ← List.drop_drop, hdrop, List.drop_left]
  have hint : len.toUInt32.toInt32.toInt = v.length := by
    rw [toInt_toInt32, hlen, Int.bmod_eq_of_le] <;> omega
  rw [p.next_of_writeTag h]
  refine ⟨{ p with
    valueState := if type = .byteArray then .lazyByteArray else .lazyString
    tag := tag
    dataStart := newPos
    dataLength := v.length
    position := newPos + v.length }, ?_, rfl, rfl, rfl, rfl, ?_, ?_⟩
  · rcases htype with rfl | rfl
    all_goals
      simp only [readValue, readBlob]
      erw [hnum]
      simp only [hpos, hint]
      erw [if_neg hfit]
  · simp only [List.length_append]
    omega
  · rw [lazyData, if_pos]
    · show some (slice p.data (newPos : ℤ).toNat ((newPos : ℤ) + v.length).toNat) = _
      rw [slice, show ((newPos : ℤ) + v.length).toNat = newPos + v.length from by omega,
        Int.toNat_natCast, ← List.take_drop, hdata, List.take_left]
    · refine ⟨Int.natCast_nonneg _, Int.natCast_nonneg _, ?_⟩
      show (newPos : ℤ) + (v.length : ℤ) ≤ (p.length : ℤ)
      omega

/-- A bool field. -/
theorem next_bool {p : MessageParser} {tag : UInt32} {v : Bool} {rest : List UInt8}
    (h : p.data.drop p.position = writeTag tag (if v then .boolTrue else .boolFalse) ++ rest) :
    p.next = some (.foundTag, { p with
      valueState := .valueParsed
      tag := tag
      value := .bool v
      position := p.position
        + (writeTag tag (if v then .boolTrue else .boolFalse)).length }) := by
  have hne := writeTag_length_pos tag (if v then .boolTrue else .boolFalse)
  rw [p.next_of_writeTag h]
  cases v
  all_goals
    simp only [Bool.false_eq_true, if_false, if_true] at hne ⊢
    simp only [readValue]
    congr 3
    omega

/-- A double field. -/
theorem next_double {p : MessageParser} {tag : UInt32} {v : DoubleBits} {rest : List UInt8}
    (h : p.data.drop p.position = writeTag tag .double ++ v.bytes ++ rest) :
    p.next = some (.foundTag, { p with
      valueState := .valueParsed
      tag := tag
      value := .double v
      position := p.position + (writeTag tag .double ++ v.bytes).length }) := by
  have hne := writeTag_length_pos tag .double
  have hv := v.length_eq
  rw [List.append_assoc] at h
  have hdrop := drop_after_tag h
  have hslice : slice p.data (p.position + (writeTag tag .double).length - 1 + 1)
      (p.position + (writeTag tag .double).length - 1 + 1 + 8) = v.bytes := by
    rw [slice, ← List.take_drop, hdrop, ← hv, List.take_left]
  have hread : readDouble? p.data (p.position + (writeTag tag .double).length - 1 + 1)
      = some v := by
    rw [readDouble?, dif_pos (by rw [hslice, hv])]
    congr 1
    cases v
    simpa using hslice
  rw [p.next_of_writeTag h]
  simp only [readValue]
  erw [hread]
  simp only [Option.bind_eq_bind, Option.bind_some, List.length_append, hv]
  congr 3
  omega

/-- A length that was written as a `uint32` and one that was written as a `uint64`. -/
theorem toNat_length {n : ℕ} (h : n < 2 ^ 31) :
    (UInt32.ofNat n).toUInt64.toNat = n ∧ (UInt64.ofNat n).toNat = n := by
  rw [UInt32.toNat_toUInt64, UInt32.toNat_ofNat', UInt64.toNat_ofNat']
  omega

/-- **One field.**  In front of the bytes of `f`, `next` finds `f` and moves behind it. -/
theorem next_wire {p : MessageParser} {f : MessageField} {rest : List UInt8} (hp : p.Plain)
    (hsmall : f.wire.length < 2 ^ 31) (h : p.data.drop p.position = f.wire ++ rest) :
    ∃ p', p.next = some (.foundTag, p') ∧ p'.Reads f ∧ p'.Plain ∧ p'.buffer = p.buffer ∧
      p'.position = p.position + f.wire.length := by
  unfold MessageField.wire at h hsmall
  unfold MessageField.wire Reads
  cases hv : f.value with
  | uint64 v =>
    simp only [hv] at h
    refine ⟨_, next_number (.inl rfl) h, ⟨rfl, ?_⟩,
      plain_of_numberValue .positiveNumber v rfl, rfl, rfl⟩
    · have hlt : v < 0x7FFFFFFF ↔ v.toNat < 0x7FFFFFFF := UInt64.lt_iff_toNat_lt
      simp only [kinds, longData, isInt, isLong, isBool, isDouble, isString, isByteArray,
        numberValue, reduceCtorEq, if_false]
      by_cases hs : v < 0x7FFFFFFF
      · simp [hs, longData_small (hlt.mp hs)]
      · simp [hs]
  | int32 v =>
    simp only [hv] at h
    have htype : int32Type v = .positiveNumber ∨ int32Type v = .negativeNumber := by
      unfold int32Type
      split
      · exact .inl rfl
      · exact .inr rfl
    refine ⟨_, next_number htype h, ⟨rfl, ?_⟩,
      plain_of_numberValue (int32Type v) (int32Magnitude v) rfl, rfl, rfl⟩
    · obtain ⟨hpos, hneg⟩ := intData_magnitude v
      by_cases hge : v ≥ 0
      · simp only [kinds, intData, isInt, isLong, isBool, isDouble, isString, isByteArray,
          numberValue, int32Type, if_pos hge, reduceCtorEq, if_false]
        by_cases hs : int32Magnitude v < 0x7FFFFFFF
        · simp [hs, hpos hge]
        · simp [hs, hpos hge]
      · simp only [kinds, intData, isInt, isLong, isBool, isDouble, isString, isByteArray,
          numberValue, int32Type, if_neg hge, if_true, hneg hge]
        simp
  | bool v =>
    simp only [hv] at h
    refine ⟨_, next_bool h, ⟨rfl, ?_⟩, trivial, rfl, rfl⟩
    simp [kinds, boolData, isInt, isLong, isBool, isDouble, isString, isByteArray]
  | double v =>
    simp only [hv] at h
    refine ⟨_, next_double h, ⟨rfl, ?_⟩, trivial, rfl, rfl⟩
    simp [kinds, doubleData, isInt, isLong, isBool, isDouble, isString, isByteArray]
  | string v =>
    simp only [hv, List.length_append] at h hsmall
    obtain ⟨p', hnext, hbuf, hval, htag, hstate, hpos, hlazy⟩ :=
      next_blob (.inl rfl) (toNat_length (by omega : v.length < 2 ^ 31)).1 (by omega) h
    simp only [reduceCtorEq, if_false] at hstate
    refine ⟨p', hnext, ⟨htag, ?_, ?_⟩, ?_, hbuf, hpos⟩
    · unfold Plain at hp
      simp only [kinds, isInt, isLong, isBool, isDouble, isString, isByteArray, hstate, hval]
      cases hpv : p.value <;> simp_all
    · rw [stringData, if_pos hstate, hlazy]
    · rw [Plain, hval]
      exact hp
  | bytes v =>
    simp only [hv, List.length_append] at h hsmall
    obtain ⟨p', hnext, hbuf, hval, htag, hstate, hpos, hlazy⟩ :=
      next_blob (.inr rfl) (toNat_length (by omega : v.length < 2 ^ 31)).2 (by omega) h
    simp only [if_true] at hstate
    refine ⟨p', hnext, ⟨htag, ?_, ?_⟩, ?_, hbuf, hpos⟩
    · unfold Plain at hp
      simp only [kinds, isInt, isLong, isBool, isDouble, isString, isByteArray, hstate, hval]
      cases hpv : p.value <;> simp_all
    · rw [bytesData, if_pos hstate, hlazy]
    · rw [Plain, hval]
      exact hp

/-! ## Messages -/

/-- Calling `next` finds exactly the fields `fs`, in order, and then the end of the
document. -/
def Yields (p : MessageParser) : List MessageField → Prop
  | [] => ∃ p', p.next = some (.endOfDocument, p')
  | f :: fs => ∃ p', p.next = some (.foundTag, p') ∧ p'.Reads f ∧ p'.Yields fs

/-- A parser in front of the bytes of `fs` that end the buffer finds `fs`. -/
theorem yields_of_drop_eq : ∀ (fs : List MessageField) (p : MessageParser), p.Plain →
    p.position ≤ p.length →
    p.data.drop p.position = (fs.map MessageField.wire).flatten → p.Yields fs := by
  intro fs
  induction fs with
  | nil =>
    intro p _ hle hdrop
    have hlen := congrArg List.length hdrop
    rw [List.length_drop] at hlen
    change p.length - p.position = 0 at hlen
    exact ⟨p, by rw [next, if_pos (by omega)]⟩
  | cons f fs ih =>
    intro p hp hle hdrop
    rw [List.map_cons, List.flatten_cons] at hdrop
    have hlen := congrArg List.length hdrop
    rw [List.length_drop, List.length_append] at hlen
    change p.length - p.position = _ at hlen
    have hsize : p.length < 2 ^ 31 := p.buffer.size_lt
    obtain ⟨p', hnext, hreads, hp', hbuf, hpos⟩ := next_wire hp (by omega) hdrop
    have hlength : p'.length = p.length := by rw [length, length, hbuf]
    refine ⟨p', hnext, hreads, ih p' hp' (by omega) ?_⟩
    rw [hpos, ← List.drop_drop, data, hbuf]
    show ((p.data).drop p.position).drop _ = _
    rw [hdrop, List.drop_left]

end MessageParser

namespace MessageBuilder

/-- A message without header is committed as it is. -/
theorem commit_noHeader (b : MessageBuilder) (hbefore : b.beforeHeader = false)
    (htype : b.messageType = .noHeader) :
    ∃ buf b', b.commit = some (buf, b') ∧ buf.bytes = b.buffer.used := by
  obtain ⟨pool, inHeader, beforeHeader, headerSize, type⟩ := b
  simp only at hbefore htype
  subst hbefore htype
  exact ⟨pool.commit.1, _, rfl, pool.bytes_commit⟩

end MessageBuilder

/-- **Round trip.**  Fields added to a builder without header on an empty pool with
enough room are found again by a parser over `buffer()`, each once and in order, and
then the document ends. -/
theorem yields_build (pool : BufferPool) (fields : List MessageField) (hempty : pool.size = 0)
    (hcap : (fields.map (·.wire.length)).sum ≤ pool.capacity) :
    ∃ b buf b', fields.foldlM MessageBuilder.add (MessageBuilder.create pool .noHeader) = some b ∧
      b.commit = some (buf, b') ∧ (MessageParser.create buf).Yields fields := by
  obtain ⟨pool', hadd, hused, -⟩ := MessageBuilder.foldlM_add_spec fields
    (MessageBuilder.create pool .noHeader) rfl (by simp [MessageBuilder.create]) hcap
  obtain ⟨buf, b', hcommit, hbytes⟩ := MessageBuilder.commit_noHeader
    { MessageBuilder.create pool .noHeader with buffer := pool' } rfl rfl
  refine ⟨_, buf, b', hadd, hcommit, ?_⟩
  have hnil : pool.used = [] := List.length_eq_zero_iff.mp (by rw [pool.length_used, hempty])
  apply MessageParser.yields_of_drop_eq fields (MessageParser.create buf) trivial (Nat.zero_le _)
  show buf.bytes.drop 0 = _
  rw [List.drop_zero, hbytes]
  simp only
  rw [hused]
  show pool.used ++ _ = _
  rw [hnil, List.nil_append]

/-- A pool of sixteen bytes holds a string and the smallest `int32`. -/
theorem yields_build_sixteen :
    ∃ b buf b', [MessageField.mk 40 (.string [0x68, 0x69]), ⟨3, .int32 (-2147483648)⟩].foldlM
        MessageBuilder.add (MessageBuilder.create
          ⟨List.replicate 16 0, 0, 0, by decide, by decide, by decide⟩ .noHeader) = some b ∧
      b.commit = some (buf, b') ∧ (MessageParser.create buf).Yields
        [⟨40, .string [0x68, 0x69]⟩, ⟨3, .int32 (-2147483648)⟩] :=
  yields_build _ _ rfl (by decide)

end Streaming
