/-
# Reading generated headers

What `createHeader` and the loop over the chunks of a message write is read back by `processPacket` of the
peer.  A number of `0x7FFFFFFF` is no `int` for the parser: it is refused where a header field has to be
one, and dropped elsewhere.  Names from `0xFFFFFF` on are dropped too.

* `readHeader_headerBytes` : the header of a packet, whatever its fields are and whatever follows the
  packet, and it is decided by the packet's own bytes.
-/
import Hub.MessageRoundTrip
import Hub.PacketDiscipline
import Hub.PacketIsolation

namespace Streaming.MessageParser

/-! ## Fields -/

/-- The tag of a field that was written. -/
theorem tagEnd?_writeTag {data rest : List UInt8} {pos : ℕ} {tag : UInt32} {type : ValueType}
    (h : data.drop pos = writeTag tag type ++ rest) :
    ∃ byte, data[pos]? = some byte ∧ ValueType.ofByte byte = some type ∧
      tagEnd? data pos byte = some (pos + (writeTag tag type).length - 1) ∧
      (byte >>> 3 = 31 → NumberSettled data (pos + 1)) := by
  by_cases hlong : tag ≥ 31
  · obtain ⟨hshift, htype⟩ := long_tag_byte type
    rw [writeTag, if_pos hlong] at h ⊢
    obtain ⟨hbyte, htail⟩ := getElem?_of_drop_eq_cons h
    have hnum := unserialize_serialize tag.toUInt64 htail
    refine ⟨_, hbyte, htype, ?_, fun _ => .inl (by rw [hnum]; rfl)⟩
    rw [tagEnd?, if_pos hshift, hnum]
    simp only [if_neg (long_tag_value tag).1, List.length_cons]
    congr 1
    omega
  · rw [ge_iff_le, UInt32.le_iff_toNat_le] at hlong
    change ¬ 31 ≤ tag.toNat at hlong
    obtain ⟨hshift, htype⟩ := short_tag_byte type tag.toNat (by omega)
    have hcast : tag.toUInt8 = UInt8.ofNat tag.toNat := by
      apply UInt8.toNat_inj.mp
      rw [UInt32.toNat_toUInt8, UInt8.toNat_ofNat']
    rw [writeTag, if_neg (by rw [ge_iff_le, UInt32.le_iff_toNat_le]; exact hlong), hcast] at h ⊢
    obtain ⟨hbyte, -⟩ := getElem?_of_drop_eq_cons h
    have hne : ((UInt8.ofNat tag.toNat <<< 3) + type.code) >>> 3 ≠ 31 := by
      intro heq
      rw [heq] at hshift
      change 31 = tag.toNat at hshift
      omega
    refine ⟨_, hbyte, htype, ?_, fun heq => absurd heq hne⟩
    rw [tagEnd?, if_neg hne, List.length_singleton, Nat.add_sub_cancel]

/-- A number or a `bool` that was written is settled. -/
theorem fieldSettled_wire {data rest : List UInt8} {pos : ℕ} {f : MessageField}
    (hf : (∃ v, f.value = .int32 v) ∨ ∃ v, f.value = .bool v)
    (h : data.drop pos = f.wire ++ rest) :
    ∃ byte, data[pos]? = some byte ∧ FieldSettled data pos byte := by
  have hnumber : ∀ {type : ValueType} {v : UInt64} {tail : List UInt8},
      data.drop pos = writeTag f.tag type ++ (serialize v ++ tail) →
      NumberSettled data (pos + (writeTag f.tag type).length - 1 + 1) := by
    intro type v tail hdrop
    have hpos := writeTag_length_pos f.tag type
    have hrest : data.drop (pos + (writeTag f.tag type).length - 1 + 1) = serialize v ++ tail := by
      rw [show pos + (writeTag f.tag type).length - 1 + 1 = pos + (writeTag f.tag type).length from
        by omega, ← List.drop_drop, hdrop, List.drop_left]
    exact .inl (by rw [unserialize_serialize v hrest]; rfl)
  unfold MessageField.wire at h
  rcases hf with ⟨v, hv⟩ | ⟨v, hv⟩
  · rw [hv] at h
    simp only [List.append_assoc] at h
    obtain ⟨byte, hbyte, htype, hend, htag⟩ := tagEnd?_writeTag h
    refine ⟨byte, hbyte, htag, ?_⟩
    rw [hend, htype]
    have hsettled := hnumber h
    unfold int32Type at hsettled ⊢
    split_ifs at hsettled ⊢
    · exact hsettled
    · exact hsettled
  · rw [hv] at h
    obtain ⟨byte, hbyte, htype, hend, htag⟩ := tagEnd?_writeTag h
    refine ⟨byte, hbyte, htag, ?_⟩
    rw [hend, htype]
    cases v
    · trivial
    · trivial

/-- The largest `int`; the parser takes it for a long. -/
def intMax : Int32 := 0x7FFFFFFF

/-- **An `int` that was written** is found as one, if it is not the largest. -/
theorem nextOver_int32 {p : MessageParser} {tag : UInt32} {v : Int32} {rest : List UInt8}
    (h : p.data.drop p.position = MessageField.wire ⟨tag, .int32 v⟩ ++ rest) :
    ∃ q, p.nextOver = (.foundTag, q) ∧ q.tag = tag ∧ q.intData = v ∧
      (q.isInt = true ↔ v ≠ intMax) ∧ q.isBool = false ∧ q.buffer = p.buffer ∧
      q.position = p.position + (MessageField.wire ⟨tag, .int32 v⟩).length := by
  have htype : int32Type v = .positiveNumber ∨ int32Type v = .negativeNumber := by
    unfold int32Type
    split
    · exact .inl rfl
    · exact .inr rfl
  have hnext := next_number htype h
  refine ⟨_, nextOver_of_next hnext, rfl, ?_, ?_, ?_, rfl, rfl⟩
  · obtain ⟨hpos, hneg⟩ := intData_magnitude v
    by_cases hge : v ≥ 0
    · simp only [intData, numberValue, int32Type, if_pos hge, reduceCtorEq, if_false]
      by_cases hs : int32Magnitude v < 0x7FFFFFFF
      · simp [hs, hpos hge]
      · simp [hs, hpos hge]
    · simp only [intData, numberValue, int32Type, if_neg hge, if_true, hneg hge]
  · have hmag := toNat_int32Magnitude v
    have hhi := v.toInt_lt
    have hmax : v = intMax ↔ v.toInt = 2147483647 := by
      rw [← Int32.toInt_inj]
      exact Iff.rfl
    by_cases hge : v ≥ 0
    · have hpos : 0 ≤ v.toInt := Int32.le_iff_toInt_le.mp hge
      have hlt : int32Magnitude v < 0x7FFFFFFF ↔ v.toInt ≠ 2147483647 := by
        rw [UInt64.lt_iff_toNat_lt, hmag]
        change v.toInt.natAbs < 2147483647 ↔ _
        omega
      simp only [isInt, numberValue, int32Type, if_pos hge, reduceCtorEq, if_false]
      rw [ne_eq, hmax, ← ne_eq, ← hlt]
      by_cases hs : int32Magnitude v < 0x7FFFFFFF
      · simp [hs]
      · simp [hs]
    · have hne : v ≠ intMax := by
        rintro rfl
        exact hge (by decide)
      simp [isInt, numberValue, int32Type, hge, hne]
  · unfold numberValue
    by_cases hneg : int32Type v = .negativeNumber
    · simp [isBool, hneg]
    · by_cases hs : int32Magnitude v < 0x7FFFFFFF
      · simp [isBool, hneg, hs]
      · simp [isBool, hneg, hs]

/-- A `bool` that was written. -/
theorem nextOver_bool {p : MessageParser} {tag : UInt32} {v : Bool} {rest : List UInt8}
    (h : p.data.drop p.position = MessageField.wire ⟨tag, .bool v⟩ ++ rest) :
    ∃ q, p.nextOver = (.foundTag, q) ∧ q.tag = tag ∧ q.isBool = true ∧ q.boolData = v ∧
      q.buffer = p.buffer ∧
      q.position = p.position + (MessageField.wire ⟨tag, .bool v⟩).length := by
  have hnext := next_bool h
  exact ⟨_, nextOver_of_next hnext, rfl, by simp [isBool], by simp [boolData], rfl, rfl⟩

end Streaming.MessageParser

namespace Network

open Streaming (ConstBuffer MessageField MessageParser)
open Streaming.MessageParts (wires)
open Streaming.MessageParser (intMax)

/-! ## Headers -/

/-- What a field does to a header, by its value. -/
def PacketHeader.addWire (h : PacketHeader) (f : MessageField) : PacketHeader :=
  match f.value with
  | .int32 v =>
      if f.tag = Network.messageId then { h with messageId := v }
      else if f.tag = Network.serviceId then { h with serviceId := v }
      else if f.tag = Network.sequenceStart then { h with sequenceSize := v }
      else if v ≠ intMax ∧ f.tag < 0xFFFFFF then
        { h with headerData := h.headerData.insertIfNew f.tag.toInt32 v }
      else h
  | .bool v =>
      if f.tag = Network.lastInSequence then { h with lastInSequence := some v } else h
  | _ => h

/-- A field that may be in a generated header. -/
def HeaderField (f : MessageField) : Prop :=
  match f.value with
  | .int32 v => f.tag ≠ Network.headerEnd ∧ f.tag ≠ Network.lastInSequence ∧
      f.tag ≠ Network.ping ∧
      (f.tag = Network.messageId ∨ f.tag = Network.serviceId ∨ f.tag = Network.sequenceStart →
        v ≠ intMax)
  | .bool _ => f.tag = Network.lastInSequence
  | _ => False

/-- **One field** of a header. -/
theorem nextOver_headerField {p : MessageParser} {f : MessageField} {rest : List UInt8}
    (hf : HeaderField f) (h : p.data.drop p.position = f.wire ++ rest) :
    ∃ q, p.nextOver = (.foundTag, q) ∧ q.tag ≠ Network.headerEnd ∧ q.buffer = p.buffer ∧
      q.position = p.position + f.wire.length ∧
      ∀ header : PacketHeader, header.addField q = some (header.addWire f) := by
  obtain ⟨tag, value⟩ := f
  cases value with
  | int32 v =>
    obtain ⟨hend, hlast, hping, hint⟩ := hf
    obtain ⟨q, hnext, htag, hdata, hisInt, -, hbuf, hpos⟩ := MessageParser.nextOver_int32 h
    refine ⟨q, hnext, by rwa [htag], hbuf, hpos, fun header => ?_⟩
    simp only at hend hlast hping hint
    unfold PacketHeader.addField PacketHeader.addWire
    simp only [htag, hdata]
    by_cases hm : tag = Network.messageId
    · rw [if_pos hm, if_pos hm, if_pos (hisInt.mpr (hint (.inl hm)))]
    · rw [if_neg hm, if_neg hm]
      by_cases hs : tag = Network.serviceId
      · rw [if_pos hs, if_pos hs, if_pos (hisInt.mpr (hint (.inr (.inl hs))))]
      · rw [if_neg hs, if_neg hs, if_neg hlast]
        by_cases hq : tag = Network.sequenceStart
        · rw [if_pos hq, if_pos hq, if_pos (hisInt.mpr (hint (.inr (.inr hq))))]
        · rw [if_neg hq, if_neg hq, if_neg hping]
          by_cases hkept : v ≠ intMax ∧ tag < 0xFFFFFF
          · rw [if_pos hkept, if_pos ⟨hisInt.mpr hkept.1, hkept.2⟩]
          · rw [if_neg hkept, if_neg fun hc => hkept ⟨hisInt.mp hc.1, hc.2⟩]
  | bool v =>
    obtain rfl : tag = Network.lastInSequence := hf
    obtain ⟨q, hnext, htag, hisBool, hdata, hbuf, hpos⟩ := MessageParser.nextOver_bool h
    refine ⟨q, hnext, by rw [htag]; decide, hbuf, hpos, fun header => ?_⟩
    unfold PacketHeader.addField PacketHeader.addWire
    simp only [htag, hdata]
    rw [if_neg (by decide), if_neg (by decide), if_pos trivial, if_pos hisBool, if_pos trivial]
  | uint64 v => exact hf.elim
  | double v => exact hf.elim
  | string v => exact hf.elim
  | bytes v => exact hf.elim

theorem settled_headerField {f : MessageField} (hf : HeaderField f) :
    (∃ v, f.value = .int32 v) ∨ ∃ v, f.value = .bool v := by
  unfold HeaderField at hf
  cases hv : f.value with
  | int32 v => exact .inl ⟨v, rfl⟩
  | bool v => exact .inr ⟨v, rfl⟩
  | uint64 v => simp [hv] at hf
  | double v => simp [hv] at hf
  | string v => simp [hv] at hf
  | bytes v => simp [hv] at hf

/-- Every field takes at least a byte. -/
theorem wire_ne_nil (f : MessageField) : f.wire ≠ [] := by
  obtain ⟨type, rest, hwire⟩ : ∃ type rest, f.wire = Streaming.writeTag f.tag type ++ rest := by
    unfold MessageField.wire
    cases f.value with
    | uint64 v => exact ⟨_, _, rfl⟩
    | int32 v => exact ⟨_, _, rfl⟩
    | bool v => exact ⟨_, [], (List.append_nil _).symm⟩
    | double v => exact ⟨_, _, rfl⟩
    | string v => exact ⟨_, _, List.append_assoc _ _ _⟩
    | bytes v => exact ⟨_, _, List.append_assoc _ _ _⟩
  rw [hwire]
  exact List.append_ne_nil_of_left_ne_nil
    (List.ne_nil_of_length_pos (Streaming.writeTag_length_pos f.tag type)) rest

theorem length_le_wires (fields : List MessageField) : fields.length ≤ (wires fields).length := by
  induction fields with
  | nil => exact Nat.le_refl 0
  | cons f fields ih =>
    have hpos := List.length_pos_of_ne_nil (wire_ne_nil f)
    have hwires : wires (f :: fields) = f.wire ++ wires fields := rfl
    rw [hwires, List.length_append, List.length_cons]
    omega

/-- What was written in the first `n` bytes is there with those behind them. -/
theorem drop_of_drop_take {data x rest : List UInt8} {n pos : ℕ} (hx : x ≠ [])
    (h : (data.take n).drop pos = x ++ rest) : data.drop pos = x ++ (rest ++ data.drop n) := by
  have hle : pos ≤ (data.take n).length := by
    by_contra hgt
    rw [List.drop_eq_nil_of_le (by omega)] at h
    exact hx (List.append_eq_nil_iff.mp h.symm).1
  rw [← List.append_assoc, ← h, ← List.drop_append_of_le_length hle, List.take_append_drop]

/-- **The loop over the fields** reads what was written in the first `n` bytes, and no byte behind
them. -/
theorem headerLoop_wires {n : ℕ} : ∀ {fields : List MessageField} {p : MessageParser}
    {rest : List UInt8} {rounds : ℕ} (h : PacketHeader), (∀ f ∈ fields, HeaderField f) →
    (p.data.take n).drop p.position = wires fields ++ (headerEndField.wire ++ rest) →
    fields.length < rounds →
    headerLoop rounds p h = .complete { fields.foldl PacketHeader.addWire h with
      headerSize := p.position + (wires fields ++ headerEndField.wire).length } ∧
      HeaderSettled n rounds p := by
  intro fields
  induction fields with
  | nil =>
    intro p rest rounds h _ hown hrounds
    have hdrop := drop_of_drop_take (x := headerEndField.wire) (by decide) hown
    obtain ⟨rounds, rfl⟩ : ∃ k, rounds = k + 1 := ⟨rounds - 1, by rw [List.length_nil] at hrounds; omega⟩
    obtain ⟨q, hnext, htag, -, -, -, hpos⟩ := MessageParser.nextOver_bool hdrop
    obtain ⟨byte, hbyte, hsettled⟩ :=
      MessageParser.fieldSettled_wire (f := headerEndField) (.inr ⟨true, rfl⟩) hown
    constructor
    · rw [headerLoop, hnext]
      simp only
      rw [if_pos htag, hpos]
      rfl
    · rw [HeaderSettled, hbyte]
      refine .inr ⟨hsettled, ?_⟩
      rw [hnext]
      exact .inl htag
  | cons f fields ih =>
    intro p rest rounds h hfields hown hrounds
    obtain ⟨rounds, rfl⟩ : ∃ k, rounds = k + 1 := ⟨rounds - 1, by rw [List.length_cons] at hrounds; omega⟩
    have hf := hfields f List.mem_cons_self
    have hwires : wires (f :: fields) = f.wire ++ wires fields := rfl
    rw [hwires, List.append_assoc] at hown
    have hdrop := drop_of_drop_take (wire_ne_nil f) hown
    obtain ⟨q, hnext, htag, hbuf, hpos, hadd⟩ := nextOver_headerField hf hdrop
    obtain ⟨byte, hbyte, hsettled⟩ :=
      MessageParser.fieldSettled_wire (settled_headerField hf) hown
    have hown' : (q.data.take n).drop q.position
        = wires fields ++ (headerEndField.wire ++ rest) := by
      have hdata : q.data = p.data := congrArg ConstBuffer.bytes hbuf
      rw [hdata, hpos, ← List.drop_drop, hown, List.drop_left]
    obtain ⟨hloop, hsettled'⟩ := ih (h.addWire f)
      (fun g hg => hfields g (List.mem_cons_of_mem f hg)) hown'
      (by rw [List.length_cons] at hrounds; omega : fields.length < rounds)
    constructor
    · rw [headerLoop, hnext]
      simp only
      rw [if_neg htag, hadd h]
      simp only
      rw [hloop, hpos, hwires]
      simp only [List.length_append, List.foldl_cons, Nat.add_assoc]
    · rw [HeaderSettled, hbyte]
      refine .inr ⟨hsettled, ?_⟩
      rw [hnext]
      exact .inr (.inr hsettled')

/-- A generated packet. -/
theorem take_packetLength_headerBytes {fields : List MessageField} {body : List UInt8}
    (hmax : (headerBytes fields body.length).length + body.length ≤ maxMessageSize)
    (v : List UInt8) :
    packetLength (headerBytes fields body.length ++ body ++ v)
        = (headerBytes fields body.length ++ body).length ∧
      (headerBytes fields body.length ++ body ++ v).take
          (packetLength (headerBytes fields body.length ++ body ++ v))
        = headerBytes fields body.length ++ body := by
  have hsmall : maxMessageSize < 65536 := by decide
  have hlength : packetLength (headerBytes fields body.length ++ body ++ v)
      = (headerBytes fields body.length ++ body).length := by
    rw [List.append_assoc, packetLength_headerBytes, List.length_append,
      Nat.mod_eq_of_lt (by omega)]
  refine ⟨hlength, ?_⟩
  rw [hlength, List.take_left]

/-- **The header of a generated packet**, and what is behind it. -/
theorem readHeader_headerBytes (fields : List MessageField) (body : List UInt8)
    (hfields : ∀ f ∈ fields, HeaderField f)
    (hmax : (headerBytes (fields ++ [headerEndField]) body.length).length + body.length
      ≤ maxMessageSize) :
    let data := headerBytes (fields ++ [headerEndField]) body.length ++ body
    let size := (wires (fields ++ [headerEndField])).length
    (∀ more, readHeader (data ++ more)
        = .complete { fields.foldl PacketHeader.addWire {} with headerSize := size }) ∧
      Decided data ∧ data.drop (size + 2) = body ∧ size + 2 + body.length = data.length := by
  intro data size
  have hwires : wires (fields ++ [headerEndField]) = wires fields ++ headerEndField.wire := by
    unfold wires
    rw [List.map_append, List.flatten_append]
    rfl
  have hhead : headerBytes (fields ++ [headerEndField]) body.length
      = Streaming.MessageBuilder.sizeBytes ((wires (fields ++ [headerEndField])).length + 2
          + body.length) ++ wires (fields ++ [headerEndField]) := headerBytes_eq _ _
  have htwo : ∀ n, (Streaming.MessageBuilder.sizeBytes n).length = 2 := fun n => rfl
  have hdata : data.drop 2 = wires fields ++ (headerEndField.wire ++ body) := by
    change (headerBytes (fields ++ [headerEndField]) body.length ++ body).drop 2 = _
    rw [hhead, List.append_assoc, List.drop_append_of_le_length (htwo _).ge,
      List.drop_eq_nil_of_le (htwo _).le, List.nil_append, hwires, List.append_assoc]
  have hlength : ∀ more, packetLength (data ++ more) = data.length := fun more =>
    (take_packetLength_headerBytes hmax more).1
  have hsize : data.length = size + 2 + body.length := by
    change (headerBytes (fields ++ [headerEndField]) body.length ++ body).length = _
    rw [List.length_append, length_headerBytes]
    omega
  have hcount : fields.length < data.length + 1 := by
    have hle := length_le_wires (fields ++ [headerEndField])
    rw [List.length_append, List.length_singleton] at hle
    omega
  -- the packet's own bytes in the slice for the header
  have hown : ∀ more, (headerSlice (data ++ more)).bytes.take (data.length - 2) = data.drop 2 := by
    intro more
    change (((data ++ more).drop 2).take (packetLength (data ++ more))).take _ = _
    rw [hlength, List.take_take, Nat.min_eq_left (Nat.sub_le _ _),
      List.drop_append_of_le_length (by omega), List.take_left' (by rw [List.length_drop])]
  have hloop := fun more => headerLoop_wires (n := data.length - 2)
    (p := MessageParser.create (headerSlice (data ++ more))) {} hfields
    (by
      change ((headerSlice (data ++ more)).bytes.take _).drop 0 = _
      rw [List.drop_zero, hown, hdata]) hcount
  have hself := hlength []
  rw [List.append_nil] at hself
  refine ⟨fun more => ?_, ?_, ?_, hsize.symm⟩
  · rw [readHeader, hlength, (hloop more).1]
    change HeaderEnding.complete { List.foldl PacketHeader.addWire {} fields with
      headerSize := 0 + (wires fields ++ headerEndField.wire).length } = _
    rw [Nat.zero_add, ← hwires]
  · rw [Decided, alone, hself, List.take_length]
    exact (hloop [0, 0]).2
  · rw [Nat.add_comm, ← List.drop_drop, hdata, ← List.append_assoc, ← hwires, List.drop_left]

end Network
