/-
# What a packet depends on

The slice in which `processPacket` looks for the header of a packet ends two bytes behind the
packet.  A header that has not come to `HeaderEnd` inside the packet therefore goes on in
whatever follows: the next packet, if it has arrived, or old memory.

`Decided` says that the parser looks at no byte behind the packet.  What `processPacket` does
then depends on the packet alone (`processPacket_of_samePacket`), and how the stream was cut into
segments makes no difference, as long as the receive buffer does not move with unread bytes in
it (`Undisturbed`).
-/
import Hub.NetworkReceiver
import Hub.Segments

namespace Streaming.MessageParser

/-! ## Fields that end in the packet -/

/-- The number at `pos` ends in `data`, or is broken off behind its tenth byte. -/
def NumberSettled (data : List UInt8) (pos : ℕ) : Prop :=
  (unserialize data pos).isSome ∨ pos + 10 ≤ data.length

instance (data : List UInt8) (pos : ℕ) : Decidable (NumberSettled data pos) :=
  inferInstanceAs (Decidable ((unserialize data pos).isSome ∨ pos + 10 ≤ data.length))

/-- The number in the value behind a tag that ends at `e`: the value itself, or the length of a
string or byte array.  The bytes of strings, byte arrays and doubles are not looked at. -/
def ValueSettled (data : List UInt8) (e : ℕ) : Option ValueType → Prop
  | some .positiveNumber | some .negativeNumber | some .string | some .byteArray =>
      NumberSettled data (e + 1)
  | some .double | some .boolTrue | some .boolFalse | none => True

instance (data : List UInt8) (e : ℕ) : ∀ type, Decidable (ValueSettled data e type)
  | some .positiveNumber => inferInstanceAs (Decidable (NumberSettled data (e + 1)))
  | some .negativeNumber => inferInstanceAs (Decidable (NumberSettled data (e + 1)))
  | some .string => inferInstanceAs (Decidable (NumberSettled data (e + 1)))
  | some .byteArray => inferInstanceAs (Decidable (NumberSettled data (e + 1)))
  | some .double => .isTrue trivial
  | some .boolTrue => .isTrue trivial
  | some .boolFalse => .isTrue trivial
  | none => .isTrue trivial

/-- All that `next` looks at for the field that starts with `byte` at `pos` is in `data`. -/
def FieldSettled (data : List UInt8) (pos : ℕ) (byte : UInt8) : Prop :=
  (byte >>> 3 = 31 → NumberSettled data (pos + 1)) ∧
    match tagEnd? data pos byte with
    | none => True
    | some e => ValueSettled data e (ValueType.ofByte byte)

instance (data : List UInt8) (pos : ℕ) (byte : UInt8) : Decidable (FieldSettled data pos byte) :=
  match h : tagEnd? data pos byte with
  | none => decidable_of_iff (byte >>> 3 = 31 → NumberSettled data (pos + 1))
      (by rw [FieldSettled, h]; simp)
  | some e => decidable_of_iff ((byte >>> 3 = 31 → NumberSettled data (pos + 1)) ∧
      ValueSettled data e (ValueType.ofByte byte)) (by rw [FieldSettled, h])

theorem unserializeLoop_append_of_some (data more : List UInt8) : ∀ {fuel pos : ℕ}
    {acc : UInt64} {r : UInt64 × ℕ}, unserializeLoop data fuel pos acc = some r →
    unserializeLoop (data ++ more) fuel pos acc = some r := by
  intro fuel
  induction fuel with
  | zero =>
    intro pos acc r h
    simp [unserializeLoop] at h
  | succ fuel ih =>
    intro pos acc r h
    rw [unserializeLoop] at h ⊢
    cases hbyte : data[pos]? with
    | none => simp [hbyte] at h
    | some byte =>
      obtain ⟨hlt, -⟩ := List.getElem?_eq_some_iff.mp hbyte
      rw [List.getElem?_append_left hlt, hbyte]
      simp only [hbyte] at h ⊢
      split at h
      · rename_i hcont
        rw [if_pos hcont]
        exact ih h
      · rename_i hlast
        rw [if_neg hlast]
        exact h

theorem unserializeLoop_append_of_le (data more : List UInt8) : ∀ {fuel pos : ℕ} {acc : UInt64},
    pos + fuel ≤ data.length →
    unserializeLoop (data ++ more) fuel pos acc = unserializeLoop data fuel pos acc := by
  intro fuel
  induction fuel with
  | zero =>
    intro pos acc _
    rfl
  | succ fuel ih =>
    intro pos acc h
    rw [unserializeLoop, unserializeLoop, List.getElem?_append_left (by omega)]
    cases data[pos]? with
    | none => rfl
    | some byte =>
      simp only
      rw [ih (by omega)]

/-- Later bytes do not change a number that is settled. -/
theorem NumberSettled.unserialize_append {data : List UInt8} {pos : ℕ}
    (h : NumberSettled data pos) (more : List UInt8) :
    unserialize (data ++ more) pos = unserialize data pos := by
  rcases h with hsome | hle
  · obtain ⟨r, hr⟩ := Option.isSome_iff_exists.mp hsome
    rw [hr]
    exact unserializeLoop_append_of_some data more hr
  · exact unserializeLoop_append_of_le data more hle

theorem NumberSettled.unserialize_take {data : List UInt8} {n pos : ℕ}
    (h : NumberSettled (data.take n) pos) : unserialize data pos = unserialize (data.take n) pos := by
  have happend := h.unserialize_append (data.drop n)
  rwa [List.take_append_drop] at happend

theorem nextOver_of_end {p : MessageParser} (h : p.length ≤ p.position) :
    p.nextOver = (.endOfDocument, p) := by
  unfold nextOver
  rw [show p.data[p.position]? = none from List.getElem?_eq_none h]

/-- A `double` is found whatever there is behind its type. -/
theorem readValueOver_double (p : MessageParser) : ∃ v : DoubleBits,
    p.readValueOver (some .double)
      = (.foundTag, { p with value := .double v, position := p.position + 1 + 8 }) := by
  unfold readValueOver readValue
  cases readDouble? p.data (p.position + 1) with
  | none => exact ⟨_, rfl⟩
  | some v => exact ⟨v, rfl⟩

/-- Parsers at the same place of two buffers that have the same size and the same first `n`
bytes. -/
structure Aligned (n : ℕ) (p q : MessageParser) : Prop where
  own : p.data.take n = q.data.take n
  length : p.length = q.length
  position : p.position = q.position
  tag : p.tag = q.tag
  valueState : p.valueState = q.valueState

/-- They have found the same field, as far as a header is concerned. -/
structure SameField (n : ℕ) (p q : MessageParser) : Prop extends Aligned n p q where
  isInt : p.isInt = q.isInt
  isBool : p.isBool = q.isBool
  intData : p.intData = q.intData
  boolData : p.boolData = q.boolData

/-- The results of two calls are the same. -/
def SameResult (n : ℕ) (x y : ParsedType × MessageParser) : Prop :=
  x.1 = y.1 ∧ (x.1 = .foundTag → SameField n x.2 y.2)

theorem sameResult_error {n : ℕ} (p q : MessageParser) :
    SameResult n (.error, p) (.error, q) :=
  ⟨rfl, fun hfound => by cases hfound⟩

section Aligned

variable {n : ℕ} {p q : MessageParser} (hpq : Aligned n p q)

include hpq

theorem Aligned.sameField_of_value (hvalue : p.value = q.value) : SameField n p q where
  toAligned := hpq
  isInt := by rw [isInt, isInt, hpq.valueState, hvalue]
  isBool := by rw [isBool, isBool, hpq.valueState, hvalue]
  intData := by rw [intData, intData, hpq.valueState, hvalue]
  boolData := by rw [boolData, boolData, hpq.valueState, hvalue]

/-- A string or a byte array is neither an integer nor a `bool`. -/
theorem Aligned.sameField_of_lazy (hstate : p.valueState ≠ .valueParsed) : SameField n p q where
  toAligned := hpq
  isInt := by
    rw [isInt, isInt, ← hpq.valueState, beq_false_of_ne hstate, Bool.false_and, Bool.false_and]
  isBool := by
    rw [isBool, isBool, ← hpq.valueState, beq_false_of_ne hstate, Bool.false_and, Bool.false_and]
  intData := by rw [intData, intData, ← hpq.valueState, if_neg hstate, if_neg hstate]
  boolData := by rw [boolData, boolData, ← hpq.valueState, if_neg hstate, if_neg hstate]

/-- Nor is a `double`, whatever its bytes are. -/
theorem Aligned.sameField_of_double {v w : DoubleBits} (hp : p.value = .double v)
    (hq : q.value = .double w) : SameField n p q where
  toAligned := hpq
  isInt := by rw [isInt, isInt, hpq.valueState, hp, hq]
  isBool := by rw [isBool, isBool, hpq.valueState, hp, hq]
  intData := by rw [intData, intData, hpq.valueState, hp, hq]
  boolData := by rw [boolData, boolData, hpq.valueState, hp, hq]

theorem Aligned.unserialize_eq {pos : ℕ} (h : NumberSettled (p.data.take n) pos) :
    unserialize q.data pos = unserialize p.data pos := by
  rw [h.unserialize_take, NumberSettled.unserialize_take (n := n) (hpq.own ▸ h), hpq.own]

theorem Aligned.readTag (h : p.tag = 31 → NumberSettled (p.data.take n) (p.position + 1)) :
    p.readTag.1 = q.readTag.1 ∧ Aligned n p.readTag.2 q.readTag.2 := by
  unfold MessageParser.readTag
  by_cases htag : p.tag = 31
  · rw [if_pos htag, if_pos (hpq.tag ▸ htag), ← hpq.position, hpq.unserialize_eq (h htag)]
    cases unserialize p.data (p.position + 1) with
    | none => exact ⟨rfl, hpq⟩
    | some te =>
      simp only
      split
      · exact ⟨rfl, { hpq with position := rfl }⟩
      · exact ⟨rfl, { hpq with position := rfl, tag := rfl }⟩
  · rw [if_neg htag, if_neg (hpq.tag ▸ htag)]
    exact ⟨rfl, hpq⟩

theorem Aligned.readNumber (type : ValueType)
    (h : NumberSettled (p.data.take n) (p.position + 1)) :
    SameResult n (p.readNumber type) (q.readNumber type) := by
  unfold MessageParser.readNumber
  rw [← hpq.position, hpq.unserialize_eq h]
  cases unserialize p.data (p.position + 1) with
  | none => exact sameResult_error p q
  | some vn => exact ⟨rfl, fun _ =>
      Aligned.sameField_of_value (p := { p with position := vn.2, value := _ })
        { hpq with position := rfl } rfl⟩

/-- The end of the array is compared with the size of the buffer. -/
theorem Aligned.readBlob (type : ValueType)
    (h : NumberSettled (p.data.take n) (p.position + 1)) :
    SameResult n (p.readBlob type) (q.readBlob type) := by
  unfold MessageParser.readBlob
  rw [← hpq.position, hpq.unserialize_eq h, ← hpq.length]
  cases unserialize p.data (p.position + 1) with
  | none => exact sameResult_error p q
  | some vn =>
    simp only
    split
    · exact sameResult_error p q
    · refine ⟨rfl, fun _ => Aligned.sameField_of_lazy
        { hpq with position := rfl, valueState := rfl } ?_⟩
      simp only
      split <;> simp

theorem Aligned.readValueOver (type : Option ValueType)
    (h : ValueSettled (p.data.take n) p.position type) :
    SameResult n (p.readValueOver type) (q.readValueOver type) := by
  cases type with
  | none => exact sameResult_error p q
  | some type =>
    cases type with
    | positiveNumber => exact hpq.readNumber _ h
    | negativeNumber => exact hpq.readNumber _ h
    | string => exact hpq.readBlob _ h
    | byteArray => exact hpq.readBlob _ h
    | boolTrue => exact ⟨rfl, fun _ => Aligned.sameField_of_value
        { hpq with position := congrArg (· + 1) hpq.position } rfl⟩
    | boolFalse => exact ⟨rfl, fun _ => Aligned.sameField_of_value
        { hpq with position := congrArg (· + 1) hpq.position } rfl⟩
    | double =>
      obtain ⟨v, hv⟩ := p.readValueOver_double
      obtain ⟨w, hw⟩ := q.readValueOver_double
      rw [hv, hw]
      exact ⟨rfl, fun _ => Aligned.sameField_of_double
        { hpq with position := congrArg (· + 1 + 8) hpq.position } rfl rfl⟩

end Aligned

/-- **One field.**  Bytes behind the first `n` do not change a field that is settled in them. -/
theorem Aligned.nextOver {n : ℕ} {p q : MessageParser} {byte : UInt8} (hpq : Aligned n p q)
    (hbyte : (p.data.take n)[p.position]? = some byte)
    (h : FieldSettled (p.data.take n) p.position byte) : SameResult n p.nextOver q.nextOver := by
  have hown : ∀ {r : MessageParser}, r.data.take n = p.data.take n → r.position = p.position →
      r.data[r.position]? = some byte := by
    intro r hdata hpos
    have hlt := (List.getElem?_eq_some_iff.mp hbyte).1
    rw [List.length_take, lt_min_iff] at hlt
    rw [hpos, ← List.getElem?_take_of_lt hlt.1, hdata, hbyte]
  unfold MessageParser.nextOver
  rw [hown rfl rfl, hown hpq.own.symm hpq.position.symm]
  simp only
  set p₀ : MessageParser := { p with valueState := .valueParsed, tag := (byte >>> 3).toUInt32 }
    with hp₀
  set q₀ : MessageParser := { q with valueState := .valueParsed, tag := (byte >>> 3).toUInt32 }
    with hq₀
  have hstart : Aligned n p₀ q₀ := { hpq with tag := rfl, valueState := rfl }
  have htag : p₀.tag = 31 ↔ byte >>> 3 = 31 := by
    rw [← UInt32.toNat_inj, ← UInt8.toNat_inj]
    rfl
  obtain ⟨hok, hread⟩ := hstart.readTag fun h31 => h.1 (htag.mp h31)
  -- the tag ends where it ends in the first `n` bytes
  have hend : tagEnd? p₀.data p₀.position byte = tagEnd? (p.data.take n) p.position byte := by
    unfold tagEnd?
    by_cases h31 : byte >>> 3 = 31
    · rw [if_pos h31, if_pos h31, ← (h.1 h31).unserialize_take]
      rfl
    · rw [if_neg h31, if_neg h31]
  have hspec := p₀.readTag_spec byte (List.getElem?_eq_some_iff.mp (hown rfl rfl)).1 rfl
  rw [hend] at hspec
  have hvalue := h.2
  rcases hp : p₀.readTag with ⟨ok, p₁⟩
  rcases hq : q₀.readTag with ⟨ok', q₁⟩
  rw [hp, hq] at hok hread
  obtain rfl : ok = ok' := hok
  rw [hp] at hspec
  cases he : tagEnd? (p.data.take n) p.position byte with
  | none =>
    rw [he] at hspec
    obtain ⟨m, hm, -⟩ := hspec
    obtain ⟨rfl, rfl⟩ := Prod.mk.inj hm
    exact sameResult_error _ _
  | some e =>
    rw [he] at hspec hvalue
    obtain ⟨tag, hm⟩ := hspec
    obtain ⟨rfl, hp₁⟩ := Prod.mk.inj hm
    refine hread.readValueOver _ ?_
    rw [hp₁]
    exact hvalue

end Streaming.MessageParser

namespace Network

open Streaming (ConstBuffer MessageParser)

/-! ## Packets -/

/-- The header that the parser goes through is settled in the first `n` bytes of the slice: the
parser comes to the end of the slice, to `HeaderEnd`, to a field that may not be so or to an
error, and until then every field starts in these bytes and is settled in them. -/
def HeaderSettled (n : ℕ) : ℕ → MessageParser → Prop
  | 0, _ => True
  | rounds + 1, p => p.length ≤ p.position ∨
      match (p.data.take n)[p.position]? with
      | none => False
      | some byte => MessageParser.FieldSettled (p.data.take n) p.position byte ∧
          match p.nextOver with
          | (.foundTag, q) => q.tag = Network.headerEnd ∨
              (({} : PacketHeader).addField q).isNone ∨ HeaderSettled n rounds q
          | _ => True

instance decidableHeaderSettled (n : ℕ) : ∀ (rounds : ℕ) (p : MessageParser),
    Decidable (HeaderSettled n rounds p)
  | 0, _ => .isTrue trivial
  | rounds + 1, p =>
      match hbyte : (p.data.take n)[p.position]? with
      | none => decidable_of_iff (p.length ≤ p.position) (by rw [HeaderSettled, hbyte]; simp)
      | some byte =>
          match hnext : p.nextOver with
          | (.foundTag, q) =>
              haveI := decidableHeaderSettled n rounds q
              decidable_of_iff (p.length ≤ p.position ∨
                MessageParser.FieldSettled (p.data.take n) p.position byte ∧
                  (q.tag = Network.headerEnd ∨ (({} : PacketHeader).addField q).isNone ∨
                    HeaderSettled n rounds q)) (by rw [HeaderSettled, hbyte, hnext])
          | (.endOfDocument, q) => decidable_of_iff (p.length ≤ p.position ∨
              MessageParser.FieldSettled (p.data.take n) p.position byte)
              (by rw [HeaderSettled, hbyte, hnext]; simp)
          | (.error, q) => decidable_of_iff (p.length ≤ p.position ∨
              MessageParser.FieldSettled (p.data.take n) p.position byte)
              (by rw [HeaderSettled, hbyte, hnext]; simp)

/-- The packet at the front of `data`, with two bytes behind it. -/
def alone (data : List UInt8) : List UInt8 := data.take (packetLength data) ++ [0, 0]

/-- The packet at `data` can be processed without a look at a byte behind it. -/
def Decided (data : List UInt8) : Prop :=
  HeaderSettled (packetLength data - 2) (packetLength data + 1)
    (MessageParser.create (headerSlice (alone data)))

instance (data : List UInt8) : Decidable (Decided data) :=
  inferInstanceAs (Decidable (HeaderSettled (packetLength data - 2) (packetLength data + 1)
    (MessageParser.create (headerSlice (alone data)))))

/-- Whether a field may be so does not depend on the fields before it. -/
theorem addField_eq_none_iff {h : PacketHeader} {p : MessageParser} :
    h.addField p = none ↔ (({} : PacketHeader).addField p).isNone := by
  unfold PacketHeader.addField
  split_ifs <;> simp

theorem addField_of_sameField {n : ℕ} {p q : MessageParser}
    (hpq : MessageParser.SameField n p q) (h : PacketHeader) : h.addField p = h.addField q := by
  unfold PacketHeader.addField
  rw [hpq.tag, hpq.isInt, hpq.isBool, hpq.intData, hpq.boolData]

/-- A header that is settled is read the same, whatever there is behind the first `n` bytes. -/
theorem headerLoop_of_aligned {n : ℕ} : ∀ {rounds : ℕ} {p q : MessageParser} (h : PacketHeader),
    MessageParser.Aligned n p q → HeaderSettled n rounds p →
    headerLoop rounds p h = headerLoop rounds q h := by
  intro rounds
  induction rounds with
  | zero =>
    intro p q h _ _
    rfl
  | succ rounds ih =>
    intro p q h hpq hsettled
    rw [HeaderSettled] at hsettled
    rw [headerLoop, headerLoop]
    rcases hsettled with hend | hsettled
    · -- the slice has come to its end for both
      rw [MessageParser.nextOver_of_end hend,
        MessageParser.nextOver_of_end (hpq.length ▸ hpq.position ▸ hend)]
    cases hbyte : (p.data.take n)[p.position]? with
    | none =>
      rw [hbyte] at hsettled
      exact hsettled.elim
    | some byte =>
      rw [hbyte] at hsettled
      obtain ⟨hfield, hrest⟩ := hsettled
      obtain ⟨htype, hsame⟩ := hpq.nextOver hbyte hfield
      rcases hp : p.nextOver with ⟨type, p'⟩
      rcases hq : q.nextOver with ⟨type', q'⟩
      rw [hp] at hrest
      rw [hp, hq] at htype hsame
      obtain rfl : type = type' := htype
      cases type with
      | endOfDocument => rfl
      | error => rfl
      | foundTag =>
        have hfound := hsame rfl
        simp only at hrest hfound ⊢
        rw [← hfound.tag, ← hfound.position, ← addField_of_sameField hfound]
        by_cases htag : p'.tag = Network.headerEnd
        · rw [if_pos htag, if_pos htag]
        rw [if_neg htag, if_neg htag]
        cases hadd : h.addField p' with
        | none => rfl
        | some h' =>
          refine ih h' hfound.toAligned ?_
          rcases hrest with hc | hnone | hsettled
          · exact absurd hc htag
          · rw [addField_eq_none_iff.mpr hnone] at hadd
            cases hadd
          · exact hsettled

/-! ### The bytes of a packet -/

theorem getD_take_of_lt {data : List UInt8} {n i : ℕ} (h : i < n) :
    (data.take n).getD i 0 = data.getD i 0 := by
  rw [List.getD_eq_getElem?_getD, List.getD_eq_getElem?_getD, List.getElem?_take_of_lt h]

theorem getD_append_of_lt {u v : List UInt8} {i : ℕ} (h : i < u.length) :
    (u ++ v).getD i 0 = u.getD i 0 :=
  List.getD_append u v 0 i h

/-- Two memories that begin with the same packet.  Both go on behind it as far as the slice in
which the header is looked for. -/
structure SamePacket (data₁ data₂ : List UInt8) : Prop where
  length : packetLength data₁ = packetLength data₂
  bytes : data₁.take (packetLength data₁) = data₂.take (packetLength data₂)
  room₁ : packetLength data₁ + 2 ≤ data₁.length
  room₂ : packetLength data₂ + 2 ≤ data₂.length

instance (data₁ data₂ : List UInt8) : Decidable (SamePacket data₁ data₂) :=
  decidable_of_iff (packetLength data₁ = packetLength data₂ ∧
      data₁.take (packetLength data₁) = data₂.take (packetLength data₂) ∧
      packetLength data₁ + 2 ≤ data₁.length ∧ packetLength data₂ + 2 ≤ data₂.length)
    ⟨fun ⟨a, b, c, d⟩ => ⟨a, b, c, d⟩, fun ⟨a, b, c, d⟩ => ⟨a, b, c, d⟩⟩

/-- The length of a packet is among its own bytes, or it is shorter than these. -/
theorem packetLength_alone {data : List UInt8} (h : packetLength data ≤ data.length) :
    packetLength (alone data) = packetLength data := by
  have hlen : packetLength data = (data.getD 0 0).toNat + 256 * (data.getD 1 0).toNat := rfl
  unfold alone
  set L := packetLength data
  have hown : ∀ i < L, (data.take L ++ [0, 0]).getD i 0 = data.getD i 0 := by
    intro i hi
    rw [getD_append_of_lt (by rw [List.length_take]; omega), getD_take_of_lt hi]
  rw [packetLength]
  by_cases h0 : L = 0
  · rw [h0]
    rfl
  by_cases h1 : L = 1
  · -- the second byte of the length is zero
    have hhigh : (data.take L ++ [0, 0]).getD 1 0 = 0 := by
      obtain ⟨b, hb⟩ : ∃ b, data.take L = [b] := List.length_eq_one_iff.mp (by
        rw [List.length_take]
        omega)
      rw [hb]
      rfl
    rw [hown 0 (by omega), hhigh, hlen]
    show (data.getD 0 0).toNat + 256 * 0 = _
    omega
  · rw [hown 0 (by omega), hown 1 (by omega), hlen]

theorem length_alone {data : List UInt8} (h : packetLength data ≤ data.length) :
    (alone data).length = packetLength data + 2 := by
  rw [alone, List.length_append, List.length_take, Nat.min_eq_left h]
  rfl

/-- The packet with two other bytes behind it. -/
theorem samePacket_alone {data : List UInt8} (h : packetLength data + 2 ≤ data.length) :
    SamePacket (alone data) data where
  length := packetLength_alone (by omega)
  bytes := by
    rw [packetLength_alone (by omega), alone, List.take_append_of_le_length (by
      rw [List.length_take]
      omega), List.take_take, min_self]
  room₁ := by rw [packetLength_alone (by omega), length_alone (by omega)]
  room₂ := h

section SamePacket

variable {data₁ data₂ : List UInt8} (h : SamePacket data₁ data₂)

include h

theorem SamePacket.symm : SamePacket data₂ data₁ :=
  ⟨h.length.symm, h.bytes.symm, h.room₂, h.room₁⟩

theorem SamePacket.alone_eq : alone data₁ = alone data₂ := by
  rw [alone, alone, h.bytes]

theorem SamePacket.decided (h₁ : Decided data₁) : Decided data₂ := by
  rwa [Decided, h.length, h.alone_eq] at h₁

theorem SamePacket.packetBytes :
    Receiver.packetBytes data₁ = Receiver.packetBytes data₂ := by
  simp only [Receiver.packetBytes, h.bytes]

theorem SamePacket.packetBody (header : PacketHeader) :
    Network.packetBody data₁ header = Network.packetBody data₂ header := by
  rw [Network.packetBody, Network.packetBody, h.bytes]

/-- The slices for the header begin with the same bytes. -/
theorem SamePacket.aligned : MessageParser.Aligned (packetLength data₁ - 2)
    (MessageParser.create (headerSlice data₁)) (MessageParser.create (headerSlice data₂)) where
  own := by
    have hown : ∀ {data : List UInt8}, ((data.drop 2).take (packetLength data)).take
        (packetLength data - 2) = (data.take (packetLength data)).drop 2 := by
      intro data
      rw [List.take_take, Nat.min_eq_left (Nat.sub_le _ _), List.drop_take]
    show ((data₁.drop 2).take (packetLength data₁)).take _
      = ((data₂.drop 2).take (packetLength data₂)).take _
    rw [hown, h.bytes, h.length, hown]
  length := by
    have hroom₁ := h.room₁
    have hroom₂ := h.room₂
    have hlength := h.length
    show ((data₁.drop 2).take (packetLength data₁)).length
      = ((data₂.drop 2).take (packetLength data₂)).length
    rw [List.length_take, List.length_take, List.length_drop, List.length_drop]
    omega
  position := rfl
  tag := rfl
  valueState := rfl

/-- The header of a packet that is decided. -/
theorem SamePacket.readHeader (hdecided : Decided data₁) :
    Network.readHeader data₁ = Network.readHeader data₂ := by
  have hlong := samePacket_alone h.room₁
  have hsettled : HeaderSettled (packetLength (alone data₁) - 2) (packetLength (alone data₁) + 1)
      (MessageParser.create (headerSlice (alone data₁))) := by
    rw [hlong.length]
    exact hdecided
  have hread : ∀ {data : List UInt8}, SamePacket (alone data₁) data →
      Network.readHeader (alone data₁) = Network.readHeader data := by
    intro data hsame
    rw [Network.readHeader, Network.readHeader, ← hsame.length]
    exact headerLoop_of_aligned {} hsame.aligned hsettled
  have hother : SamePacket (alone data₁) data₂ :=
    ⟨hlong.length.trans h.length, hlong.bytes.trans h.bytes, hlong.room₁, h.room₂⟩
  rw [← hread hlong, hread hother]

end SamePacket

namespace Receiver

/-- **A packet that is decided is processed the same, whatever follows it.** -/
theorem processPacket_of_samePacket {r : Receiver} {data₁ data₂ : List UInt8}
    (hsame : SamePacket data₁ data₂) (h : Decided data₁) :
    r.processPacket data₁ = r.processPacket data₂ := by
  have hheader : ∀ header, r.processHeader data₁ header = r.processHeader data₂ header := by
    intro header
    simp only [processHeader, processSingle, packetMessage, processChunk, appendChunk,
      hsame.length, hsame.packetBytes, hsame.packetBody]
  rw [processPacket, processPacket, hsame.readHeader h]
  cases readHeader data₂ with
  | complete header => exact hheader header
  | malformed => rfl
  | endless => rfl

/-! ## The stream -/

/-- The connection without its receive buffer. -/
def clearStream (r : Receiver) : Receiver :=
  { r with receiveStream := [], receivePool := .empty }

/-- `processPacket` neither looks at the receive buffer nor takes anything from it. -/
theorem clearStream_deliver (r : Receiver) (d : Delivery) (h : PacketHeader) :
    r.clearStream.deliver d h
      = ((r.deliver d h).1.clearStream, (r.deliver d h).2) := by
  unfold deliver
  split <;> rfl

theorem clearStream_close (r : Receiver) : r.clearStream.close = r.close.clearStream := by
  unfold close
  by_cases h : r.isOutgoing
  · rw [if_pos h, if_pos (show r.clearStream.isOutgoing from h)]
    rfl
  · rw [if_neg h, if_neg (show ¬ r.clearStream.isOutgoing from h)]
    rfl

theorem clearStream_startSequence (r : Receiver) (h : PacketHeader) :
    r.clearStream.startSequence h = (r.startSequence h).clearStream := by
  unfold startSequence
  split <;> rfl

theorem clearStream_appendChunk (r : Receiver) (data : List UInt8) (h : PacketHeader)
    (last : Bool) : r.clearStream.appendChunk data h last
      = ((r.appendChunk data h last).1.clearStream, (r.appendChunk data h last).2) := by
  unfold appendChunk
  by_cases hinside : packetLength data < h.headerSize + 2
  · rw [if_pos hinside, if_pos hinside]
    rfl
  · rw [if_neg hinside, if_neg hinside]
    by_cases hroom : (packetBody data h).length ≤ r.chunkedMessageBuffer.capacity
    · have hroom' : (packetBody data h).length ≤ r.clearStream.chunkedMessageBuffer.capacity :=
        hroom
      rw [dif_pos hroom, dif_pos hroom',
        show r.clearStream.chunkedMessageBuffer.append (packetBody data h) hroom'
          = r.chunkedMessageBuffer.append (packetBody data h) hroom from rfl]
      cases r.chunkedMessageBuffer.append (packetBody data h) hroom with
      | none => rfl
      | some buffer =>
        cases last with
        | false => rfl
        | true => exact clearStream_deliver { r with
            chunkedMessageId := -1
            chunkedServiceId := -1
            chunkedMessageBuffer := buffer.clear } _ h
    · have hroom' : ¬ (packetBody data h).length ≤ r.clearStream.chunkedMessageBuffer.capacity :=
        hroom
      rw [dif_neg hroom, dif_neg hroom']
      rfl

theorem clearStream_processChunk (r : Receiver) (data : List UInt8) (h : PacketHeader)
    (last : Bool) : r.clearStream.processChunk data h last
      = ((r.processChunk data h last).1.clearStream, (r.processChunk data h last).2) := by
  unfold processChunk
  by_cases hrefuse : r.Refuses h
  · rw [if_pos hrefuse, if_pos (show r.clearStream.Refuses h from hrefuse), clearStream_close]
  · rw [if_neg hrefuse, if_neg (show ¬ r.clearStream.Refuses h from hrefuse)]
    split
    · rfl
    · rw [clearStream_startSequence, clearStream_appendChunk]

theorem clearStream_processPacket (r : Receiver) (data : List UInt8) :
    r.clearStream.processPacket data
      = ((r.processPacket data).1.clearStream, (r.processPacket data).2) := by
  unfold processPacket
  split
  · rfl
  · rw [clearStream_close]
  · rename_i h _
    unfold processHeader
    split
    · rw [clearStream_close]
    · split
      · rfl
      · split
        · exact clearStream_deliver r _ h
        · exact clearStream_processChunk r data h _

/-- A reader of the stream that looks at one packet at a time: a round of the loop, with the
packet processed alone. -/
def takePacket (r : Receiver) (u : List UInt8) : Segments.Taken Receiver :=
  if u.length < 4 then .more r
  else if r.firstPacket ∧ u.getD 2 0 ≠ 8 then .halt { r with firstPacket := false }.close
  else if packetLength u > maxMessageSize then .halt { r with firstPacket := false }.close
  else if u.length < packetLength u then .more { r with firstPacket := false }
  else
    match { r with firstPacket := false }.processPacket (alone u) with
    | (r', false) => .halt r'
    | (r', true) => .item r' (packetLength u)

/-- The unread bytes begin with a packet that can be processed. -/
def PacketReady (r : Receiver) (u : List UInt8) : Prop :=
  4 ≤ u.length ∧ (r.firstPacket → u.getD 2 0 = 8) ∧ packetLength u ≤ maxMessageSize ∧
    packetLength u ≤ u.length

instance (r : Receiver) (u : List UInt8) : Decidable (PacketReady r u) :=
  inferInstanceAs (Decidable (4 ≤ u.length ∧ (r.firstPacket → u.getD 2 0 = 8) ∧
    packetLength u ≤ maxMessageSize ∧ packetLength u ≤ u.length))

theorem takePacket_of_ready {r : Receiver} {u : List UInt8} (h : PacketReady r u) :
    takePacket r u =
      match { r with firstPacket := false }.processPacket (alone u) with
      | (r', false) => .halt r'
      | (r', true) => .item r' (packetLength u) := by
  obtain ⟨h4, hfirst, hmax, hlen⟩ := h
  rw [takePacket, if_neg (by omega), if_neg (fun hf => hf.2 (hfirst hf.1)),
    if_neg (not_lt.mpr hmax), if_neg (not_lt.mpr hlen)]

theorem PacketReady.append {r : Receiver} {u : List UInt8} (h : PacketReady r u)
    (v : List UInt8) : PacketReady r (u ++ v) := by
  obtain ⟨h4, hfirst, hmax, hlen⟩ := h
  rw [PacketReady, packetLength_append (le_trans (by decide) h4), getD_append_of_lt (by omega),
    List.length_append]
  exact ⟨by omega, hfirst, hmax, by omega⟩

/-- No packet of length `0` is processed. -/
theorem packetLength_pos_of_processPacket {r r' : Receiver} {u : List UInt8}
    (h : r.processPacket (alone u) = (r', true)) : 0 < packetLength u := by
  by_contra hzero
  obtain hzero : packetLength u = 0 := by omega
  rw [alone, hzero, List.take_zero] at h
  change (r.close, false) = _ at h
  simp at h

/-- What an attempt finds: too few bytes to tell, something that is refused, the beginning of a
packet, or a packet. -/
theorem takePacket_cases (r : Receiver) (u : List UInt8) :
    (u.length < 4 ∧ takePacket r u = .more r) ∨
    (¬ PacketReady r u ∧ ∀ v, takePacket r (u ++ v) = .halt { r with firstPacket := false }.close) ∨
    ((4 ≤ u.length ∧ (r.firstPacket → u.getD 2 0 = 8)) ∧
      takePacket r u = .more { r with firstPacket := false } ∧
      ∀ v, takePacket { r with firstPacket := false } (u ++ v) = takePacket r (u ++ v)) ∨
    PacketReady r u := by
  by_cases h4 : u.length < 4
  · exact .inl ⟨h4, by rw [takePacket, if_pos h4]⟩
  have h4' : ∀ v : List UInt8, ¬ (u ++ v).length < 4 := by
    intro v
    rw [List.length_append]
    omega
  by_cases hfirst : r.firstPacket ∧ u.getD 2 0 ≠ 8
  · refine .inr (.inl ⟨fun h => hfirst.2 (h.2.1 hfirst.1), fun v => ?_⟩)
    rw [takePacket, if_neg (h4' v), getD_append_of_lt (by omega), if_pos hfirst]
  by_cases hmax : packetLength u > maxMessageSize
  · refine .inr (.inl ⟨fun h => absurd h.2.2.1 (not_le.mpr hmax), fun v => ?_⟩)
    rw [takePacket, if_neg (h4' v), getD_append_of_lt (by omega), if_neg hfirst,
      packetLength_append (by omega), if_pos hmax]
  have hfirst' : r.firstPacket → u.getD 2 0 = 8 := by
    intro hf
    by_contra hbyte
    exact hfirst ⟨hf, hbyte⟩
  by_cases hlen : u.length < packetLength u
  · refine .inr (.inr (.inl ⟨⟨by omega, hfirst'⟩, ?_, fun v => ?_⟩))
    · rw [takePacket, if_neg h4, if_neg hfirst, if_neg hmax, if_pos hlen]
    · rw [takePacket, takePacket, if_neg (h4' v), if_neg (h4' v), getD_append_of_lt (by omega),
        if_neg hfirst, if_neg (by simp)]
  · exact .inr (.inr (.inr ⟨by omega, hfirst', not_lt.mp hmax, not_lt.mp hlen⟩))

theorem alone_append {u : List UInt8} (h4 : 4 ≤ u.length) (hlen : packetLength u ≤ u.length)
    (v : List UInt8) : alone (u ++ v) = alone u := by
  rw [alone, alone, packetLength_append (le_trans (by decide) h4),
    List.take_append_of_le_length hlen]

theorem PacketReady.alone_append {r : Receiver} {u : List UInt8} (h : PacketReady r u)
    (v : List UInt8) : alone (u ++ v) = alone u :=
  Receiver.alone_append h.1 h.2.2.2 v

/-- The reader does not change its mind. -/
theorem stable_takePacket : Segments.Stable takePacket where
  nil _ := rfl
  more := by
    intro r u r' h v
    rcases takePacket_cases r u with ⟨-, htake⟩ | ⟨-, hhalt⟩ | ⟨-, htake, hsame⟩ | hready
    · obtain rfl : r = r' := by simpa [htake] using h
      rfl
    · have htake := hhalt []
      rw [List.append_nil, h] at htake
      simp at htake
    · obtain rfl : { r with firstPacket := false } = r' := by simpa [htake] using h
      exact hsame v
    · rw [takePacket_of_ready hready] at h
      split at h <;> simp at h
  halt := by
    intro r u r' h v
    rcases takePacket_cases r u with ⟨-, htake⟩ | ⟨-, hhalt⟩ | ⟨-, htake, -⟩ | hready
    · simp [htake] at h
    · have htake := hhalt []
      rw [List.append_nil, h] at htake
      rw [hhalt v, htake]
    · simp [htake] at h
    · rw [takePacket_of_ready hready] at h
      rw [takePacket_of_ready (hready.append v), hready.alone_append v]
      split at h
      · exact h
      · simp at h
  item := by
    intro r u r' n h
    rcases takePacket_cases r u with ⟨-, htake⟩ | ⟨-, hhalt⟩ | ⟨-, htake, -⟩ | hready
    · simp [htake] at h
    · have htake := hhalt []
      rw [List.append_nil, h] at htake
      simp at htake
    · simp [htake] at h
    · rw [takePacket_of_ready hready] at h
      split at h
      · simp at h
      · rename_i r'' hproc
        obtain ⟨rfl, rfl⟩ : r'' = r' ∧ packetLength u = n := by simpa using h
        refine ⟨packetLength_pos_of_processPacket hproc, hready.2.2.2, fun v => ?_⟩
        rw [takePacket_of_ready (hready.append v), hready.alone_append v, hproc,
          packetLength_append (le_trans (by decide) hready.1)]

/-- A packet that can be processed is decided. -/
def DecidedAt (r : Receiver) (u : List UInt8) : Prop := PacketReady r u → Decided u

instance (r : Receiver) (u : List UInt8) : Decidable (DecidedAt r u) :=
  inferInstanceAs (Decidable (PacketReady r u → Decided u))

theorem decided_append {u : List UInt8} (h4 : 4 ≤ u.length) (hlen : packetLength u ≤ u.length)
    (v : List UInt8) : Decided (u ++ v) ↔ Decided u := by
  rw [Decided, Decided, alone_append h4 hlen, packetLength_append (le_trans (by decide) h4)]

theorem DecidedAt.of_append {r : Receiver} {u v : List UInt8} (h : DecidedAt r (u ++ v)) :
    DecidedAt r u := by
  intro hready
  exact (decided_append hready.1 hready.2.2.2 v).mp (h (hready.append v))

theorem DecidedAt.of_more {r r' : Receiver} {u v : List UInt8} (htake : takePacket r u = .more r')
    (h : DecidedAt r (u ++ v)) : DecidedAt r' (u ++ v) := by
  rcases takePacket_cases r u with ⟨-, hmore⟩ | ⟨-, hhalt⟩ | ⟨⟨h4, hfirst⟩, hmore, -⟩ | hready
  · obtain rfl : r = r' := by simpa [hmore] using htake
    exact h
  · have hnil := hhalt []
    rw [List.append_nil, htake] at hnil
    simp at hnil
  · rintro ⟨hlen, -, hmax, hle⟩
    refine h ⟨hlen, fun hf => ?_, hmax, hle⟩
    rw [getD_append_of_lt (by omega)]
    exact hfirst hf
  · rw [takePacket_of_ready hready] at htake
    split at htake <;> simp at htake

/-- The connection behind a round, for the reader: what is found, and what becomes of the link. -/
def RoundMatches (r : Receiver) : Receiver × RoundEnd → Prop
  | (r', .needMore) => takePacket r.clearStream r.receiveStream = .more r'.clearStream ∧
      SameLink r r'
  | (r', .stop) => takePacket r.clearStream r.receiveStream = .halt r'.clearStream ∧
      r'.status ≠ .connected
  | (r', .again) => takePacket r.clearStream r.receiveStream
        = .item r'.clearStream (packetLength r.receiveStream) ∧
      r'.status = r.status ∧
      r'.receiveStream = r.receiveStream.drop (packetLength r.receiveStream)

/-- **One round.**  With a packet that is decided, the loop does what the reader does. -/
theorem roundMatches_round {r : Receiver} (behind : UInt8 × UInt8)
    (h : DecidedAt r.clearStream r.receiveStream) : RoundMatches r (r.round behind) := by
  have hclosed : ∀ r : Receiver, r.close.status ≠ .connected := by
    intro r
    unfold close
    split <;> simp
  unfold round receivePacket
  by_cases h4 : r.receiveStream.length < 4
  · rw [if_pos h4]
    refine ⟨?_, rfl, rfl⟩
    rw [takePacket, if_pos h4]
  rw [if_neg h4]
  by_cases hfirst : r.firstPacket ∧ r.receiveStream.getD 2 0 ≠ 8
  · rw [if_pos hfirst]
    refine ⟨?_, hclosed _⟩
    rw [takePacket, if_neg h4, if_pos (show r.clearStream.firstPacket = true ∧ _ from hfirst)]
    exact congrArg Segments.Taken.halt (clearStream_close { r with firstPacket := false })
  rw [if_neg hfirst]
  simp only
  by_cases hmax : packetLength r.receiveStream > maxMessageSize
  · rw [if_pos hmax]
    refine ⟨?_, hclosed _⟩
    rw [takePacket, if_neg h4, if_neg (show ¬ (r.clearStream.firstPacket = true ∧ _) from hfirst),
      if_pos hmax]
    exact congrArg Segments.Taken.halt (clearStream_close { r with firstPacket := false })
  rw [if_neg hmax]
  by_cases hlen : r.receiveStream.length < packetLength r.receiveStream
  · rw [if_pos hlen]
    refine ⟨?_, rfl, rfl⟩
    rw [takePacket, if_neg h4, if_neg (show ¬ (r.clearStream.firstPacket = true ∧ _) from hfirst),
      if_neg hmax, if_pos hlen]
    rfl
  rw [if_neg hlen]
  have hready : PacketReady r.clearStream r.receiveStream := by
    refine ⟨by omega, fun hf => ?_, not_lt.mp hmax, not_lt.mp hlen⟩
    by_contra hbyte
    exact hfirst ⟨hf, hbyte⟩
  -- the two bytes behind the buffer play no part
  have hdecided : Decided (r.receiveStream ++ [behind.1, behind.2]) :=
    (decided_append hready.1 hready.2.2.2 _).mpr (h hready)
  have hroom : packetLength (r.receiveStream ++ [behind.1, behind.2]) + 2
      ≤ (r.receiveStream ++ [behind.1, behind.2]).length := by
    have hle := hready.2.2.2
    rw [packetLength_append (le_trans (by decide) hready.1), List.length_append]
    exact Nat.add_le_add_right hle 2
  have hsame := samePacket_alone hroom
  rw [← processPacket_of_samePacket hsame (hsame.symm.decided hdecided), hready.alone_append]
  have hclear := clearStream_processPacket { r with firstPacket := false }
    (alone r.receiveStream)
  have htake := takePacket_of_ready hready
  rw [show { r.clearStream with firstPacket := false }
    = ({ r with firstPacket := false } : Receiver).clearStream from rfl, hclear] at htake
  rcases hproc : { r with firstPacket := false }.processPacket
    (alone r.receiveStream) with ⟨r', ok⟩
  rw [hproc] at htake ⊢
  cases ok with
  | false => exact ⟨htake, status_ne_of_processPacket hproc⟩
  | true =>
    obtain ⟨hstatus, hstream⟩ := sameLink_of_processPacket hproc
    refine ⟨htake, hstatus, ?_⟩
    show r'.receiveStream.drop _ = _
    rw [hstream]

/-- The connection is where the reader is: same state, and same unread bytes while it is
connected. -/
def Reads (r : Receiver) (st : Receiver × Option (List UInt8)) : Prop :=
  r.clearStream = st.1 ∧
    match st.2 with
    | some u => r.status = .connected ∧ r.receiveStream = u
    | none => r.status ≠ .connected

/-- The loop. -/
theorem reads_receiveLoop (behind : UInt8 × UInt8) : ∀ (rounds : ℕ) (r : Receiver),
    r.status = .connected →
    Segments.Along takePacket DecidedAt rounds r.clearStream r.receiveStream →
    Reads (receiveLoop behind rounds r)
      (Segments.drain takePacket rounds r.clearStream r.receiveStream) := by
  intro rounds
  induction rounds with
  | zero =>
    intro r hr _
    exact ⟨rfl, hr, rfl⟩
  | succ rounds ih =>
    intro r hr halong
    have hround := roundMatches_round behind halong.1
    have hrest := halong.2
    rw [receiveLoop, Segments.drain]
    rcases hres : r.round behind with ⟨r', ending⟩
    rw [hres] at hround
    cases ending with
    | needMore =>
      obtain ⟨htake, hstatus, hstream⟩ := hround
      rw [htake]
      exact ⟨rfl, hstatus.trans hr, hstream⟩
    | stop =>
      obtain ⟨htake, hstatus⟩ := hround
      rw [htake]
      exact ⟨rfl, hstatus⟩
    | again =>
      obtain ⟨htake, hstatus, hstream⟩ := hround
      rw [htake] at hrest ⊢
      simp only [← hstream] at hrest ⊢
      exact ih r' (hstatus.trans hr) hrest

/-- All packets that the reader finds when the bytes `x` arrive are decided. -/
def DecidedAlong (st : Receiver × Option (List UInt8)) (x : List UInt8) : Prop :=
  ∀ u, st.2 = some u → Segments.Along takePacket DecidedAt ((u ++ x).length + 1) st.1 (u ++ x)

/-- The loop behind which `reserve` is called, when the bytes `bytes` have arrived. -/
def drained (r : Receiver) (bytes : List UInt8) (memory : Memory) : Receiver :=
  receiveLoop memory.behind (r.receiveStream ++ bytes).length (r.markUsed bytes)

/-- The receive buffer does not move with unread bytes in it: where it has not the room for a
packet behind them, there are none. -/
def StaysPut (r : Receiver) (bytes : List UInt8) (memory : Memory) : Prop :=
  (r.drained bytes memory).status = .connected →
    (r.drained bytes memory).receivePool.capacity < maxMessageSize →
    (r.drained bytes memory).receiveStream = []

instance (r : Receiver) (bytes : List UInt8) (memory : Memory) :
    Decidable (r.StaysPut bytes memory) :=
  inferInstanceAs (Decidable ((r.drained bytes memory).status = .connected →
    (r.drained bytes memory).receivePool.capacity < maxMessageSize →
    (r.drained bytes memory).receiveStream = []))

/-- It makes room and changes nothing else. -/
theorem reads_reserve {r : Receiver} {st : Receiver × Option (List UInt8)} (hr : Reads r st)
    (freed : ℕ → UInt8)
    (h : r.receivePool.capacity < maxMessageSize → r.receiveStream = []) :
    Reads (r.reserve freed) st := by
  unfold reserve
  by_cases hroom : r.receivePool.capacity < maxMessageSize
  · rw [if_pos hroom]
    obtain ⟨hclear, hlink⟩ := hr
    refine ⟨hclear, ?_⟩
    cases ho : st.2 with
    | none =>
      rw [ho] at hlink
      exact hlink
    | some u =>
      rw [ho] at hlink
      refine ⟨hlink.1, ?_⟩
      rw [← hlink.2, h hroom]
      rfl
  · rw [if_neg hroom]
    exact hr

/-- A segment that arrives. -/
theorem reads_step {r : Receiver} {st : Receiver × Option (List UInt8)} (hr : Reads r st)
    (bytes : List UInt8) (memory : Memory) (h : DecidedAlong st bytes)
    (hput : r.status = .connected → r.StaysPut bytes memory) :
    Reads (r.step (.bytes bytes memory)) (Segments.feed takePacket st bytes) := by
  obtain ⟨s, o⟩ := st
  obtain ⟨hclear, hlink⟩ := hr
  cases o with
  | none =>
    -- a connection that is not connected gets no bytes
    have hsame : r.step (.bytes bytes memory) = r := by
      unfold step
      cases hs : r.status with
      | connected => exact absurd hs hlink
      | closed => rfl
      | stalled => rfl
      | failed fault => rfl
    rw [hsame]
    exact ⟨hclear, hlink⟩
  | some u =>
    obtain ⟨hstatus, rfl⟩ := hlink
    have hstep : r.step (.bytes bytes memory) = r.receivedSomeBytes bytes memory := by
      unfold step
      rw [hstatus]
    have halong := (h r.receiveStream rfl).of_le (Nat.le_succ _)
    simp only at hclear halong
    rw [← hclear] at halong ⊢
    have hdrained : Reads (r.drained bytes memory) (Segments.feed takePacket
        (r.clearStream, some r.receiveStream) bytes) :=
      reads_receiveLoop memory.behind _ (r.markUsed bytes) hstatus halong
    rw [hstep]
    show Reads (if (r.drained bytes memory).status = .connected then
      (r.drained bytes memory).reserve memory.freed else r.drained bytes memory) _
    by_cases hconnected : (r.drained bytes memory).status = .connected
    · rw [if_pos hconnected]
      exact reads_reserve hdrained memory.freed (hput hstatus hconnected)
    · rw [if_neg hconnected]
      exact hdrained

/-- The connection after the segments `segs` have arrived. -/
def receiveAll (r : Receiver) (segs : List (List UInt8 × Memory)) : Receiver :=
  segs.foldl (fun r seg => r.step (.bytes seg.1 seg.2)) r

/-- The stream that is cut into the segments `segs`. -/
def streamOf (segs : List (List UInt8 × Memory)) : List UInt8 :=
  (segs.map Prod.fst).flatten

/-- While the segments arrive, the receive buffer does not move with unread bytes in it. -/
def Undisturbed : Receiver → List (List UInt8 × Memory) → Prop
  | _, [] => True
  | r, seg :: segs => (r.status = .connected → r.StaysPut seg.1 seg.2) ∧
      Undisturbed (r.step (.bytes seg.1 seg.2)) segs

instance decidableUndisturbed : ∀ (r : Receiver) (segs : List (List UInt8 × Memory)),
    Decidable (Undisturbed r segs)
  | _, [] => .isTrue trivial
  | r, seg :: segs =>
      haveI := decidableUndisturbed (r.step (.bytes seg.1 seg.2)) segs
      inferInstanceAs (Decidable ((r.status = .connected → r.StaysPut seg.1 seg.2) ∧
        Undisturbed (r.step (.bytes seg.1 seg.2)) segs))

theorem reads_receiveAll : ∀ {segs : List (List UInt8 × Memory)} {r : Receiver}
    {st : Receiver × Option (List UInt8)}, Reads r st → DecidedAlong st (streamOf segs) →
    Undisturbed r segs →
    Reads (r.receiveAll segs) ((segs.map Prod.fst).foldl (Segments.feed takePacket) st) := by
  intro segs
  induction segs with
  | nil =>
    intro r st hr _ _
    exact hr
  | cons seg segs ih =>
    intro r st hr hall hput
    have hsplit : ∀ u, st.2 = some u →
        Segments.Along takePacket DecidedAt ((u ++ seg.1).length + 1) st.1 (u ++ seg.1) ∧
        ∀ s' u', Segments.run takePacket st.1 (u ++ seg.1) = (s', some u') →
          Segments.Along takePacket DecidedAt ((u' ++ streamOf segs).length + 1) s'
            (u' ++ streamOf segs) := by
      intro u hu
      refine stable_takePacket.along_append (fun _ _ _ => DecidedAt.of_append)
        (fun _ _ _ _ => DecidedAt.of_more) (streamOf segs) _ st.1 (u ++ seg.1)
        (Nat.lt_succ_self _) ?_
      rw [List.append_assoc]
      exact hall u hu
    refine ih (reads_step hr seg.1 seg.2 (fun u hu => (hsplit u hu).1) hput.1) ?_ hput.2
    intro u' hu'
    rcases hst : st with ⟨s, _ | u⟩
    · rw [hst] at hu'
      simp [Segments.feed] at hu'
    · rw [hst] at hu' hsplit
      exact (hsplit u rfl).2 _ u' (Prod.ext rfl hu')

/-! ## Isolation -/

/-- Nothing tells the two connections apart but unread bytes that will never be looked at, and the
room behind them. -/
def SameOutcome (r₁ r₂ : Receiver) : Prop :=
  r₁.clearStream = r₂.clearStream ∧
    (r₁.status = .connected → r₁.receiveStream = r₂.receiveStream)

/-- Every packet that the connection finds in the stream is decided. -/
def DecidedStream (r : Receiver) (stream : List UInt8) : Prop :=
  Segments.Along takePacket DecidedAt ((r.receiveStream ++ stream).length + 1) r.clearStream
    (r.receiveStream ++ stream)

instance (r : Receiver) (stream : List UInt8) : Decidable (DecidedStream r stream) :=
  inferInstanceAs (Decidable (Segments.Along takePacket DecidedAt
    ((r.receiveStream ++ stream).length + 1) r.clearStream (r.receiveStream ++ stream)))

/-- Where the reader starts. -/
theorem exists_reads (r : Receiver) :
    ∃ o, Reads r (r.clearStream, o) ∧ ∀ u, o = some u → u = r.receiveStream := by
  by_cases hs : r.status = .connected
  · exact ⟨some r.receiveStream, ⟨rfl, hs, rfl⟩, by rintro u ⟨⟩; rfl⟩
  · exact ⟨none, ⟨rfl, hs⟩, by rintro u ⟨⟩⟩

theorem Reads.sameOutcome {r₁ r₂ : Receiver} {st : Receiver × Option (List UInt8)}
    (h₁ : Reads r₁ st) (h₂ : Reads r₂ st) : SameOutcome r₁ r₂ := by
  refine ⟨h₁.1.trans h₂.1.symm, fun hs => ?_⟩
  have hlink₁ := h₁.2
  have hlink₂ := h₂.2
  cases ho : st.2 with
  | none =>
    rw [ho] at hlink₁
    exact absurd hs hlink₁
  | some u =>
    rw [ho] at hlink₁ hlink₂
    exact hlink₁.2.trans hlink₂.2.symm

theorem foldl_feed_of_ne_nil {segs : List (List UInt8 × Memory)} (h : segs ≠ [])
    (st : Receiver × Option (List UInt8)) :
    (segs.map Prod.fst).foldl (Segments.feed takePacket) st
      = Segments.feed takePacket st (streamOf segs) := by
  cases segs with
  | nil => exact absurd rfl h
  | cons seg segs => exact stable_takePacket.foldl_feed st (segs.map Prod.fst) seg.1

/-- **Packet isolation.**  What `processPacket` does with a packet that is decided depends on the
packet and the connection only; and for a stream whose packets are all decided it makes no
difference how it is cut into segments and what lies in memory behind each of them, as long as the
receive buffer does not move with unread bytes in it. -/
theorem isolated_of_decided (r : Receiver) :
    (∀ data₁ data₂, SamePacket data₁ data₂ → Decided data₁ →
      r.processPacket data₁ = r.processPacket data₂) ∧
    ∀ segs₁ segs₂, segs₁ ≠ [] → segs₂ ≠ [] → streamOf segs₁ = streamOf segs₂ →
      DecidedStream r (streamOf segs₁) → Undisturbed r segs₁ → Undisturbed r segs₂ →
      SameOutcome (r.receiveAll segs₁) (r.receiveAll segs₂) := by
  refine ⟨fun data₁ data₂ hsame hdecided => processPacket_of_samePacket hsame hdecided, ?_⟩
  intro segs₁ segs₂ hne₁ hne₂ hstream hdecided hput₁ hput₂
  obtain ⟨o, hreads, ho⟩ := r.exists_reads
  have halong : DecidedAlong (r.clearStream, o) (streamOf segs₁) := by
    intro u hu
    rw [ho u hu]
    exact hdecided
  have h₁ := reads_receiveAll hreads halong hput₁
  have h₂ := reads_receiveAll hreads
    (show DecidedAlong _ (streamOf segs₂) from hstream ▸ halong) hput₂
  rw [foldl_feed_of_ne_nil hne₁] at h₁
  rw [foldl_feed_of_ne_nil hne₂, ← hstream] at h₂
  exact h₁.sameOutcome h₂

/-- A small message to service `1`, followed by different bytes, and in one or two segments.  Before
it comes a packet whose header ends in a byte array that goes on two bytes behind the packet. -/
theorem isolated_of_decided_smallMessage :
    (create true).processPacket [0x06, 0x00, 0x08, 0x10, 0xA3, 0x02, 0x00, 0x00]
      = (create true).processPacket [0x06, 0x00, 0x08, 0x10, 0xA3, 0x02, 0x04, 0x04] ∧
    SameOutcome
      ((create true).receiveAll [([0x06, 0x00, 0x08, 0x01, 0x04, 0xAA], .zeros)])
      ((create true).receiveAll [([0x06, 0x00], ⟨(7, 7), fun _ => 7⟩),
        ([0x08, 0x01, 0x04, 0xAA], ⟨(7, 7), fun _ => 7⟩)]) :=
  ⟨(isolated_of_decided (create true)).1 _ _ (by decide) (by decide),
    (isolated_of_decided (create true)).2 _ _ (by simp) (by simp) rfl (by decide) (by decide)
      (by decide)⟩

/-- A system message of four bytes whose header does not end in the packet: it is accepted or
closes the connection, as the next byte may be.  When the message that follows is received in a
segment of its own, it is lost. -/
theorem not_isolated_openHeader :
    (SamePacket [0x04, 0x00, 0x08, 0x7E, 0x04, 0x00] [0x04, 0x00, 0x08, 0x7E, 0x07, 0x00] ∧
      ((create true).processPacket [0x04, 0x00, 0x08, 0x7E, 0x04, 0x00]).2 = true ∧
      ((create true).processPacket [0x04, 0x00, 0x08, 0x7E, 0x07, 0x00]).2 = false) ∧
    ((create true).receiveAll [([0x04, 0x00, 0x08, 0x7E, 0x06, 0x00, 0x08, 0x01, 0x04, 0xAA],
      ⟨(7, 7), fun _ => 0⟩)]).delivered.length = 1 ∧
    ((create true).receiveAll [([0x04, 0x00, 0x08, 0x7E], ⟨(7, 7), fun _ => 0⟩),
      ([0x06, 0x00, 0x08, 0x01, 0x04, 0xAA], ⟨(7, 7), fun _ => 0⟩)]).delivered.length = 0 := by
  decide

-- with little room left, a message is delivered or not, as it arrives in one segment or in two
example :
    ({ create true with receivePool := ⟨41000, 9004⟩ }.receiveAll
      [([0x06, 0x00, 0x08, 0x01, 0x04, 0xAA], .zeros)]).delivered.length = 1 ∧
    ({ create true with receivePool := ⟨41000, 9004⟩ }.receiveAll
      [([0x06, 0x00, 0x08, 0x01, 0x04], .zeros), ([0xAA], .zeros)]).delivered.length = 0 := by
  decide

end Receiver

end Network
