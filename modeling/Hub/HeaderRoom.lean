/-
# The room for generated headers

`createHeader` reserves ten bytes for each integer of a message, and `runMessageQueue` twenty
bytes for the header of a chunk, before a `MessageBuilder` writes the header without a look at
the end of the pool.  A header consists of the two bytes of the size, a name and a value for
each integer, and the field that ends it; a number takes up to five bytes.

* `buildHeader_spec` : the builder leaves the bytes of the header, if there is room for them;
* `length_simpleHeader`, `length_chunkHeader` : how many there are;
* `headersFit_iff` : the reservation suffices except for large names and numbers;
* `exists_runMessageQueue` : where it suffices, a round gets through.
-/
import Mathlib
import Hub.BuilderReuse
import Hub.NetworkSender

namespace Network

open Streaming (MessageField MessageBuilder BufferPool ConstBuffer serialize writeTag
  int32Magnitude)
open Streaming.MessageParts (wires)

/-! ## The size of a number -/

/-- The bytes that `serialize` writes for a number of 32 bits. -/
def numberSize (n : ℕ) : ℕ :=
  if n < 128 then 1 else if n < 16512 then 2 else if n < 2113664 then 3
  else if n < 270549120 then 4 else 5

theorem numberSize_le (n : ℕ) : 1 ≤ numberSize n ∧ numberSize n ≤ 5 := by
  unfold numberSize
  split_ifs <;> omega

theorem length_digits {n : ℕ} (h : n < 2 ^ 32) :
    (BijectiveBase.digits 128 n).length = numberSize n := by
  have hstep : ∀ {n}, 128 ≤ n → (BijectiveBase.digits 128 n).length
      = (BijectiveBase.digits 128 (n / 128 - 1)).length + 1 := by
    intro n hn
    rw [BijectiveBase.digits_of_le (by omega) hn, List.length_cons]
  have hlast : ∀ {n}, n < 128 → (BijectiveBase.digits 128 n).length = 1 := by
    intro n hn
    rw [BijectiveBase.digits_of_lt hn]
    rfl
  unfold numberSize
  split_ifs with h₁ h₂ h₃ h₄
  · exact hlast h₁
  · rw [hstep (by omega), hlast (by omega)]
  · rw [hstep (by omega), hstep (by omega), hlast (by omega)]
  · rw [hstep (by omega), hstep (by omega), hstep (by omega), hlast (by omega)]
  · rw [hstep (by omega), hstep (by omega), hstep (by omega), hstep (by omega), hlast (by omega)]

theorem length_serialize {value : UInt64} (h : value.toNat < 2 ^ 32) :
    (serialize value).length = numberSize value.toNat := by
  rw [Streaming.serialize_eq, List.length_reverse, List.length_mapIdx, length_digits h]

/-- The bytes of a type and a tag. -/
def tagSize (tag : UInt32) : ℕ := if tag ≥ 31 then 1 + numberSize tag.toNat else 1

theorem length_writeTag (tag : UInt32) (type : Streaming.ValueType) :
    (writeTag tag type).length = tagSize tag := by
  have htag := tag.toNat_lt
  rw [writeTag, tagSize]
  split
  · rw [List.length_cons, length_serialize (by rw [UInt32.toNat_toUInt64]; omega),
      UInt32.toNat_toUInt64, Nat.add_comm]
  · rfl

/-- The bytes of an integer of a header. -/
def intSize (tag : UInt32) (value : Int32) : ℕ := tagSize tag + numberSize value.toInt.natAbs

theorem length_wire_int32 (tag : UInt32) (value : Int32) :
    (MessageField.wire ⟨tag, .int32 value⟩).length = intSize tag value := by
  have hlo := value.le_toInt
  have hhi := value.toInt_lt
  have hmag := Streaming.toNat_int32Magnitude value
  show (writeTag tag _ ++ serialize (int32Magnitude value)).length = _
  rw [List.length_append, length_writeTag, length_serialize (by omega), hmag]
  rfl

/-! ## The builder of a header -/

/-- What the builder is asked to do for a header: the fields, the size of the packet that the
header is for, and `buffer`. -/
def buildHeader (b : MessageBuilder) (fields : List MessageField) (bodySize : ℕ) :
    Option (ConstBuffer × MessageBuilder) := do
  let b ← fields.foldlM MessageBuilder.add b
  let b ← b.setMessageSize (b.buffer.size + bodySize)
  b.commit

theorem headerBytes_eq (fields : List MessageField) (bodySize : ℕ) :
    headerBytes fields bodySize
      = MessageBuilder.sizeBytes ((wires fields).length + 2 + bodySize) ++ wires fields := rfl

theorem length_headerBytes (fields : List MessageField) (bodySize : ℕ) :
    (headerBytes fields bodySize).length = 2 + (wires fields).length := by
  rw [headerBytes_eq, List.length_append]
  rfl

/-- **A header is built exactly when there is room** for its bytes. -/
theorem buildHeader_spec {b : MessageBuilder} (h : b.Idle) (htype : b.messageType = .headerOnly)
    {fields : List MessageField} (hne : fields ≠ []) (bodySize : ℕ) :
    if (headerBytes fields bodySize).length ≤ b.buffer.capacity then
      ∃ header b', buildHeader b fields bodySize = some (header, b') ∧
        header.bytes = headerBytes fields bodySize ∧ b'.Idle ∧ b'.messageType = .headerOnly
    else buildHeader b fields bodySize = none := by
  rw [length_headerBytes]
  split
  next hroom =>
    rcases h.foldlM_add hne with ⟨pool, hmark, hadd⟩ | ⟨hmark, -⟩
    · obtain ⟨x, hx, hused, hcap⟩ := BufferPool.used_markUsed hmark
      rw [h.used, List.nil_append] at hused
      have hleft : (wires fields).length ≤ pool.capacity := by omega
      obtain ⟨b', hadd', hb', htype', hused', -⟩ := MessageBuilder.foldlM_add_room
        (b := { b with buffer := pool, beforeHeader := false }) rfl hleft
      have hheader : b'.messageType = .headerOnly := htype'.trans htype
      dsimp only at hused'
      rw [hused] at hused'
      have hsize : b'.buffer.size = 2 + (wires fields).length := by
        rw [← BufferPool.length_used, hused', List.length_append, hx]
      obtain ⟨pool', hset, hused'', -⟩ := MessageBuilder.setMessageSize_spec hb'
        (by rw [hheader]; decide) hx hused' (show 0 < b'.buffer.size + bodySize by omega)
      refine ⟨pool'.commit.1, { b' with buffer := pool'.commit.2, beforeHeader := true }, ?_, ?_,
        ⟨rfl, by rw [hheader]; decide, MessageBuilder.used_commit pool'⟩, hheader⟩
      · rw [buildHeader, hadd, hadd']
        simp only [Option.bind_eq_bind, Option.bind_some, hset, MessageBuilder.commit, guard, hb',
          hheader, if_true, Option.pure_def]
        rfl
      · show pool'.used = _
        rw [hused'', hsize, headerBytes_eq, Nat.add_comm 2]
    · rw [BufferPool.markUsed, dif_pos] at hmark
      · cases hmark
      · rw [BufferPool.capacity] at hroom
        omega
  next hroom =>
    rw [buildHeader, h.foldlM_add_eq_none hne hroom]
    rfl

/-! ## The sizes of the headers -/

theorem length_wires_append (fs gs : List MessageField) :
    (wires (fs ++ gs)).length = (wires fs).length + (wires gs).length := by
  simp [wires]

/-- A message that is sent in one packet. -/
theorem length_simpleHeader (m : Message) (bodySize : ℕ) :
    (headerBytes (simpleFields m) bodySize).length
      = 3 + (m.headerData.toList.map fun e => intSize e.1.toUInt32 e.2).sum := by
  have hints : (wires (m.headerData.toList.map fun e =>
      (⟨e.1.toUInt32, .int32 e.2⟩ : MessageField))).length
      = (m.headerData.toList.map fun e => intSize e.1.toUInt32 e.2).sum := by
    rw [MessageBuilder.length_wires, List.map_map]
    congr 1
    apply List.map_congr_left
    intro e _
    exact length_wire_int32 e.1.toUInt32 e.2
  have hend : (wires [headerEndField]).length = 1 := rfl
  rw [length_headerBytes, simpleFields, length_wires_append, hints, hend]
  omega

/-- A chunk. -/
theorem length_chunkHeader (m : Message) (first last : Bool) (bodySize : ℕ) :
    (headerBytes (chunkFields m first last) bodySize).length
      = 5 + numberSize m.serviceId.toInt.natAbs
        + (if m.messageId ≥ 0 then 1 + numberSize m.messageId.toInt.natAbs else 0)
        + (if first then 1 + numberSize m.body.length else 0) := by
  have hbody : (Int32.ofNat m.body.length).toInt.natAbs = m.body.length := by
    have hlt := m.rawData.size_lt
    have hle : m.body.length ≤ m.rawData.bytes.length := by
      rw [Message.body, List.length_drop]
      omega
    rw [Int32.toInt_ofNat_of_lt (by omega)]
    rfl
  have hone : ∀ tag v, (wires [⟨tag, .int32 v⟩]).length = intSize tag v := by
    intro tag v
    rw [← length_wire_int32]
    simp [wires]
  have hbool : (wires [⟨Network.lastInSequence, .bool last⟩, headerEndField]).length = 2 := by
    cases last <;> rfl
  have hsmall : ∀ tag v, tag < 31 → intSize tag v = 1 + numberSize v.toInt.natAbs := by
    intro tag v htag
    rw [intSize, tagSize, if_neg (by simpa using htag)]
  rw [length_headerBytes, chunkFields, length_wires_append, length_wires_append,
    length_wires_append, hbool, hone, hsmall _ _ (by decide)]
  have hid : (wires (if m.messageId ≥ 0 then
      [(⟨Network.messageId, .int32 m.messageId⟩ : MessageField)] else [])).length
      = if m.messageId ≥ 0 then 1 + numberSize m.messageId.toInt.natAbs else 0 := by
    split
    · rw [hone, hsmall _ _ (by decide)]
    · rfl
  have hstart : (wires (if first then
      [(⟨Network.sequenceStart, .int32 (Int32.ofNat m.body.length)⟩ : MessageField)] else [])).length
      = if first then 1 + numberSize m.body.length else 0 := by
    split
    · rw [hone, hsmall _ _ (by decide), hbody]
    · rfl
  rw [hid, hstart]
  omega

/-! ## The reservation -/

/-- The headers that are generated for a message, with the bytes that are reserved for each.
`createHeader` does not take a message with a negative service. -/
def generated (m : Message) : List (List MessageField × ℕ) :=
  if m.hasHeader then []
  else if m.size > chunkSize then
    (List.range (chunkCount m.body.length)).map fun i =>
      (chunkFields m (i = 0) (i + 1 = chunkCount m.body.length), 20)
  else if m.serviceId < 0 then []
  else [(simpleFields m, 10 * m.headerData.size)]

/-- No header is longer than its room, and none is written behind the end of a pool that has
the room. -/
def HeadersFit (m : Message) : Prop :=
  ∀ g ∈ generated m, ∀ bodySize, (headerBytes g.1 bodySize).length ≤ g.2 ∧
    ∀ pool : BufferPool, pool.size = 0 → g.2 ≤ pool.capacity →
      (buildHeader (MessageBuilder.create pool .headerOnly) g.1 bodySize).isSome

/-- The numbers are small enough: those of a chunk take thirteen bytes at most, and those of
another message leave three bytes of ten for each. -/
def RoomSuffices (m : Message) : Prop :=
  m.hasHeader = false →
    if m.size > chunkSize then
      m.messageId ≥ 0 → numberSize m.serviceId.toInt.natAbs
        + numberSize m.messageId.toInt.natAbs + numberSize m.size ≤ 13
    else m.serviceId ≥ 0 →
      3 + (m.headerData.toList.map fun e => intSize e.1.toUInt32 e.2).sum
        ≤ 10 * m.headerData.size

/-- A header that is not longer than its room is written inside the pool. -/
theorem buildHeader_isSome {fields : List MessageField} (hne : fields ≠ []) {room bodySize : ℕ}
    (h : (headerBytes fields bodySize).length ≤ room) {pool : BufferPool} (hpool : pool.size = 0)
    (hroom : room ≤ pool.capacity) :
    (buildHeader (MessageBuilder.create pool .headerOnly) fields bodySize).isSome := by
  have hidle : (MessageBuilder.create pool .headerOnly).Idle :=
    MessageBuilder.idle_create hpool (by decide)
  have hfits : (headerBytes fields bodySize).length
      ≤ (MessageBuilder.create pool .headerOnly).buffer.capacity := le_trans h hroom
  have hspec := buildHeader_spec hidle rfl hne bodySize
  rw [if_pos hfits] at hspec
  obtain ⟨header, b', hbuild, -⟩ := hspec
  rw [hbuild]
  rfl

/-- **The reservation.**  It suffices for every header of a message exactly when the numbers in
it are small enough. -/
theorem headersFit_iff (m : Message) : HeadersFit m ↔ RoomSuffices m := by
  rw [HeadersFit, RoomSuffices, generated]
  by_cases hown : m.hasHeader = true
  · rw [if_pos hown]
    refine iff_of_true (fun g hg => (by cases hg)) fun hc => ?_
    rw [hown] at hc
    cases hc
  rw [if_neg hown]
  have hown' : m.hasHeader = false := by simpa using hown
  have hbody := body_length_of_noHeader hown'
  by_cases hlarge : m.size > chunkSize
  · rw [if_pos hlarge, if_pos hlarge]
    have hs := numberSize_le m.serviceId.toInt.natAbs
    have hi := numberSize_le m.messageId.toInt.natAbs
    have hb := numberSize_le m.body.length
    constructor
    · intro h _ hid
      have hfirst : 0 < chunkCount m.body.length := by
        rw [lt_chunkCount_iff, chunkSize] at *
        omega
      have hlen := (h _ (List.mem_map_of_mem (List.mem_range.mpr hfirst)) 0).1
      rw [length_chunkHeader, if_pos hid] at hlen
      simp only [decide_true, if_true] at hlen
      rw [← hbody]
      omega
    · intro h g hg bodySize
      obtain ⟨i, -, rfl⟩ := List.mem_map.mp hg
      have hlen : (headerBytes (chunkFields m (i = 0) (i + 1 = chunkCount m.body.length))
          bodySize).length ≤ 20 := by
        rw [length_chunkHeader]
        rw [← hbody] at h
        split_ifs with hid
        · have := h hown' hid
          omega
        · omega
        · omega
        · omega
      exact ⟨hlen, fun pool hpool hroom =>
        buildHeader_isSome (by simp [chunkFields]) hlen hpool hroom⟩
  · rw [if_neg hlarge, if_neg hlarge]
    by_cases hservice : m.serviceId < 0
    · rw [if_pos hservice]
      refine iff_of_true (fun g hg => (by cases hg)) fun _ hc => ?_
      exact absurd hc (by simpa using hservice)
    · rw [if_neg hservice]
      have hservice' : m.serviceId ≥ 0 := by simpa using hservice
      constructor
      · intro h _ _
        have hlen := (h _ List.mem_cons_self 0).1
        rwa [length_simpleHeader] at hlen
      · intro h g hg bodySize
        obtain rfl := List.mem_singleton.mp hg
        have hlen : (headerBytes (simpleFields m) bodySize).length ≤ 10 * m.headerData.size := by
          rw [length_simpleHeader]
          exact h hown' hservice'
        exact ⟨hlen, fun pool hpool hroom =>
          buildHeader_isSome (by simp [simpleFields]) hlen hpool hroom⟩

/-! ## A round gets through -/

/-- A message without a header of its own, for which the headers that are generated fit. -/
structure Sendable (m : Message) : Prop where
  noHeader : m.hasHeader = false
  service : m.serviceId ≥ 0
  room : RoomSuffices m

section Progress

variable (grow : ℕ → ℕ)

/-- The pool has the room that was reserved. -/
theorem HelperBuffer.le_capacity_reserve (b : HelperBuffer) (bytes : ℕ) :
    bytes ≤ (b.reserve grow bytes).capacity := by
  unfold HelperBuffer.reserve
  split_ifs with hlow hdefault
  · exact hdefault
  · exact Nat.le_max_left _ _
  · exact not_lt.mp hlow

theorem HelperBuffer.exists_commit {b : HelperBuffer} {room bytes : ℕ} (h : bytes ≤ room) :
    ∃ b', (b.reserve grow room).commit bytes = some b' :=
  ⟨_, if_pos (h.trans (b.le_capacity_reserve grow room))⟩

/-- A header of a message takes the bytes that are reserved for it at most. -/
theorem Sendable.length_simpleHeader_le {m : Message} (hm : Sendable m)
    (hsmall : ¬ m.size > chunkSize) : (simpleHeader m).length ≤ 10 * m.headerData.size := by
  have hroom := hm.room hm.noHeader
  rw [if_neg hsmall] at hroom
  rw [simpleHeader, length_simpleHeader]
  exact hroom hm.service

theorem Sendable.length_chunkHeader_le {m : Message} (hm : Sendable m) (hlarge : m.size > chunkSize)
    (first last : Bool) (bodySize : ℕ) :
    (headerBytes (chunkFields m first last) bodySize).length ≤ 20 := by
  have hroom := hm.room hm.noHeader
  rw [if_pos hlarge] at hroom
  have hs := numberSize_le m.serviceId.toInt.natAbs
  have hb := numberSize_le m.size
  rw [length_chunkHeader, body_length_of_noHeader hm.noHeader]
  by_cases hid : m.messageId ≥ 0
  · have hsum := hroom hid
    rw [if_pos hid]
    split <;> omega
  · rw [if_neg hid]
    split <;> omega

theorem Sendable.exists_pushMessage {m : Message} (hm : Sendable m) (hsmall : ¬ m.size > chunkSize)
    (r : Round) : ∃ r', pushMessage grow m r = some r' := by
  obtain ⟨helper, hcommit⟩ := HelperBuffer.exists_commit grow (b := r.helper)
    (hm.length_simpleHeader_le hsmall)
  have hheader : createHeader grow m r.helper = some (simpleHeader m, helper) := by
    rw [createHeader, guard, if_pos hm.service]
    simp only [Option.bind_eq_bind, Option.pure_def, Option.bind_some, hcommit]
  unfold pushMessage
  rw [if_neg (by rw [hm.noHeader]; decide), hheader]
  exact ⟨_, rfl⟩

theorem Sendable.exists_headerOfChunk {m : Message} (hm : Sendable m) (hlarge : m.size > chunkSize)
    (first last : Bool) (bodySize : ℕ) (kept : Option (List UInt8)) (helper : HelperBuffer) :
    ∃ res, headerOfChunk grow m first last bodySize kept helper = some res := by
  unfold headerOfChunk
  split
  · exact ⟨_, rfl⟩
  · obtain ⟨helper', hcommit⟩ := HelperBuffer.exists_commit grow (b := helper)
      (hm.length_chunkHeader_le hlarge first last bodySize)
    simp only [hcommit, Option.bind_eq_bind, Option.bind_some]
    exact ⟨_, rfl⟩

theorem Sendable.exists_chunkLoop {m : Message} (hm : Sendable m) (hlarge : m.size > chunkSize) :
    ∀ (rounds start : ℕ) (first : Bool) (kept : Option (List UInt8)) (r : Round),
    ∃ res, chunkLoop grow m rounds start first kept r = some res := by
  intro rounds
  induction rounds with
  | zero =>
    intro start first kept r
    exact ⟨_, rfl⟩
  | succ rounds ih =>
    intro start first kept r
    rw [chunkLoop]
    split
    · obtain ⟨⟨header, kept', helper⟩, hheader⟩ := hm.exists_headerOfChunk grow hlarge first
        (min (start + chunkSize) m.body.length = m.body.length)
        (Streaming.slice m.body start (min (start + chunkSize) m.body.length)).length kept r.helper
      simp only [hheader, Option.bind_eq_bind, Option.bind_some]
      split
      · exact ⟨_, rfl⟩
      · exact ih _ _ _ _
    · exact ⟨_, rfl⟩

theorem exists_messageLoop : ∀ {queue : List Message}, (∀ m ∈ queue, Sendable m) →
    ∀ (bytesSend : ℕ) (r : Round), ∃ res, messageLoop grow queue bytesSend r = some res := by
  intro queue
  induction queue with
  | nil =>
    intro _ bytesSend r
    exact ⟨_, rfl⟩
  | cons m ms ih =>
    intro hall bytesSend r
    have hm := hall m List.mem_cons_self
    have hms := ih fun x hx => hall x (List.mem_cons_of_mem m hx)
    rw [messageLoop]
    split
    · exact ⟨_, rfl⟩
    split
    · rename_i hlarge
      obtain ⟨⟨stop, r₁⟩, hchunks⟩ := hm.exists_chunkLoop grow hlarge m.body.length bytesSend
        (bytesSend = 0) none r
      obtain ⟨⟨finished, bytesSend₂, r₂⟩, hrest⟩ :=
        hms (if stop ≥ m.body.length then 0 else stop) r₁
      rw [guard, if_pos hm.noHeader]
      simp only [Option.bind_eq_bind, Option.pure_def, Option.bind_some, hchunks, hrest]
      exact ⟨_, rfl⟩
    · rename_i hsmall
      obtain ⟨r₁, hpush⟩ := hm.exists_pushMessage grow hsmall r
      obtain ⟨⟨finished, bytesSend₂, r₂⟩, hrest⟩ := hms bytesSend r₁
      simp only [Option.bind_eq_bind, Option.bind_some, hpush, hrest]
      exact ⟨_, rfl⟩

theorem exists_priorityLoop : ∀ {queue : List Message},
    (∀ m ∈ queue, Sendable m ∧ ¬ m.size > chunkSize) →
    ∀ r : Round, ∃ res, priorityLoop grow queue r = some res := by
  intro queue
  induction queue with
  | nil =>
    intro _ r
    exact ⟨_, rfl⟩
  | cons m ms ih =>
    intro hall r
    obtain ⟨hm, hsmall⟩ := hall m List.mem_cons_self
    obtain ⟨r₁, hpush⟩ := hm.exists_pushMessage grow hsmall r
    obtain ⟨⟨sent, left, r₂⟩, hrest⟩ := ih (fun x hx => hall x (List.mem_cons_of_mem m hx)) r₁
    rw [priorityLoop]
    simp only [Option.bind_eq_bind, Option.bind_some, hpush, hrest]
    split
    · exact ⟨_, rfl⟩
    · exact ⟨_, rfl⟩

/-- **A round gets through**, if the headers of all messages that are queued fit. -/
theorem exists_runMessageQueue {s : Sender} (hnormal : ∀ m ∈ s.messageQueue, Sendable m)
    (hpriority : ∀ m ∈ s.priorityMessageQueue, Sendable m ∧ ¬ m.size > chunkSize) :
    ∃ s', s.runMessageQueue grow = some s' := by
  unfold Sender.runMessageQueue
  split
  · exact ⟨_, rfl⟩
  obtain ⟨⟨sent, left, r₁⟩, hfirst⟩ := exists_priorityLoop grow hpriority {
    bytesLeft := 250 * 1024
    socketQueue := []
    sendQHeaders := s.sendQHeaders
    helper := s.helper }
  obtain ⟨⟨finished, bytesSend, r₂⟩, hsecond⟩ :=
    exists_messageLoop grow hnormal s.messageBytesSend r₁
  simp only [Option.bind_eq_bind, Option.bind_some, hfirst, hsecond]
  exact ⟨_, rfl⟩

end Progress

/-- An empty message with large ids, and with `n` large integers under large names. -/
def wideMessage (n : ℕ) : Message where
  rawData := ⟨[], Nat.two_pow_pos 31⟩
  headerSize := 0
  headerSize_le := Nat.zero_le _
  headerData := (List.range n).foldl (fun ints i => ints.insert (300000000 + Int32.ofNat i) 300000000)
    (((∅ : Std.TreeMap Int32 Int32).insert Network.serviceId.toInt32 300000000).insert
      Network.messageId.toInt32 300000000)

/-- Six such integers take 81 bytes, and 80 are reserved. -/
theorem not_headersFit_wideMessage : ¬ HeadersFit (wideMessage 6) := by
  intro h
  have hsize : 10 * (wideMessage 6).headerData.size = 80 := by decide +kernel
  have hgen : (simpleFields (wideMessage 6), 80) ∈ generated (wideMessage 6) := by
    rw [generated, if_neg (by decide), if_neg (by decide), if_neg (by decide +kernel), hsize]
    exact List.mem_singleton_self _
  have hlen := (h _ hgen 0).1
  rw [length_simpleHeader] at hlen
  revert hlen
  decide +kernel

end Network
