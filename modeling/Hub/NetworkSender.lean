/-
# Sending messages

The sending half of `NetworkManagerConnection` (`libs/networkmanager/NetworkManager.cpp`).
`queueMessage` puts a message in one of two queues.  `runMessageQueue` hands a round of about
250 KB to the socket: messages of the priority queue, which move to a list of their own, and
then messages of the other queue, which stay where they are.  Messages of more than
`CHUNK_SIZE` bytes are cut into chunks with a header each, and may take several rounds.
`sentSomeBytes` finds out from the number of bytes written which messages and headers are done.

What a message looks like on the wire is a list of packets (`packets`).  A round extends what
was sent by packets of the priority messages, and by the next packets of the other queue
(`messageLoop_spec`); `sentSomeBytes` takes off exactly the messages whose packets were all
written (`removeWritten_spec`).
-/
import Hub.MessageBuilder
import Hub.NetworkMessage
import Hub.SinglePrecision

namespace Network

open Streaming (MessageField)

/-- `CHUNK_SIZE`. -/
def chunkSize : ℕ := 8000

/-- `NetworkConnection::MessagePriority`. -/
inductive MessagePriority where
  | normalPriority
  | highPriority
  deriving DecidableEq

/-! ## Headers -/

/-- `m_sendHelperBuffer`, from which everything that is written is committed at once: its
`m_size`, and the bytes behind the write pointer. -/
structure HelperBuffer where
  size : ℕ
  capacity : ℕ

/-- The size of a buffer pool that is made without an argument. -/
def defaultPoolSize : ℕ := 256 * 1024

/-- `BufferPool::reserve` on an empty pool.  `grow` is the over-reservation: the size times the
golden ratio, rounded up. -/
def HelperBuffer.reserve (grow : ℕ → ℕ) (b : HelperBuffer) (bytes : ℕ) : HelperBuffer :=
  if b.capacity < bytes then
    if bytes ≤ defaultPoolSize then ⟨defaultPoolSize, defaultPoolSize⟩
    else ⟨max bytes (grow b.size), max bytes (grow b.size)⟩
  else b

/-- Bytes that are written and committed; `none` is the failed assertion of `markUsed`. -/
def HelperBuffer.commit (b : HelperBuffer) (bytes : ℕ) : Option HelperBuffer :=
  if bytes ≤ b.capacity then some { b with capacity := b.capacity - bytes } else none

/-- What a `MessageBuilder` for a header leaves: the size of the packet in two bytes, and the
fields. -/
def headerBytes (fields : List MessageField) (bodySize : ℕ) : List UInt8 :=
  let content := (fields.map MessageField.wire).flatten
  let size := content.length + 2 + bodySize
  [UInt8.ofNat (size % 256), UInt8.ofNat (size / 256 % 256)] ++ content

/-- The field that ends a header. -/
def headerEndField : MessageField := ⟨Network.headerEnd, .bool true⟩

/-- The fields that `createHeader` writes. -/
def simpleFields (m : Message) : List MessageField :=
  m.headerData.toList.map (fun e => ⟨e.1.toUInt32, .int32 e.2⟩) ++ [headerEndField]

/-- The header of a message that is sent in one packet. -/
def simpleHeader (m : Message) : List UInt8 := headerBytes (simpleFields m) m.size

/-- The fields of the header of a chunk. -/
def chunkFields (m : Message) (first last : Bool) : List MessageField :=
  [⟨Network.serviceId, .int32 m.serviceId⟩]
    ++ (if m.messageId ≥ 0 then [⟨Network.messageId, .int32 m.messageId⟩] else [])
    ++ (if first then [⟨Network.sequenceStart, .int32 (Int32.ofNat m.body.length)⟩] else [])
    ++ [⟨Network.lastInSequence, .bool last⟩, headerEndField]

/-! ## One round -/

/-- The local variables of `runMessageQueue`, with the members it changes as it goes. -/
structure Round where
  bytesLeft : ℤ
  socketQueue : List (List UInt8)
  sendQHeaders : List (List UInt8)
  helper : HelperBuffer

section Round

variable (grow : ℕ → ℕ)

/-- `createHeader`. -/
def createHeader (m : Message) (helper : HelperBuffer) : Option (List UInt8 × HelperBuffer) := do
  guard (m.serviceId ≥ 0)
  let helper ← (helper.reserve grow (10 * m.headerData.size)).commit (simpleHeader m).length
  some (simpleHeader m, helper)

/-- A message that is sent in one packet. -/
def pushMessage (m : Message) (r : Round) : Option Round :=
  if m.hasHeader then
    some { r with
      socketQueue := r.socketQueue ++ [m.rawData.bytes]
      bytesLeft := r.bytesLeft - m.size }
  else do
    let (header, helper) ← createHeader grow m r.helper
    some {
      bytesLeft := r.bytesLeft - header.length - m.size
      socketQueue := r.socketQueue ++ [header, m.rawData.bytes]
      sendQHeaders := r.sendQHeaders ++ [header]
      helper := helper }

/-- The loop over the priority queue: the messages sent, and the ones left. -/
def priorityLoop : List Message → Round → Option (List Message × List Message × Round)
  | [], r => some ([], [], r)
  | m :: ms, r => do
      let r ← pushMessage grow m r
      if r.bytesLeft ≤ 0 then some ([m], ms, r)
      else
        let (sent, left, r) ← priorityLoop ms r
        some (m :: sent, left, r)

/-- The header of the chunk that ends at `p`: the first and last are built, and one of those in
between, which is kept in `chunkHeader`. -/
def headerOfChunk (m : Message) (first last : Bool) (bodySize : ℕ)
    (chunkHeader : Option (List UInt8)) (helper : HelperBuffer) :
    Option (List UInt8 × Option (List UInt8) × HelperBuffer) :=
  match (if first ∨ last then none else chunkHeader) with
  | some header => some (header, chunkHeader, helper)
  | none => do
      let header := headerBytes (chunkFields m first last) bodySize
      let helper ← (helper.reserve grow 20).commit header.length
      some (header, if first then chunkHeader else some header, helper)

/-- The loop over the chunks of a message from offset `begin` on: where it stops.  The bytes of
the body bound its rounds. -/
def chunkLoop (m : Message) :
    ℕ → ℕ → Bool → Option (List UInt8) → Round → Option (ℕ × Round)
  | 0, start, _, _, r => some (start, r)
  | rounds + 1, start, first, chunkHeader, r =>
      if start < m.body.length then do
        let p := min (start + chunkSize) m.body.length
        let bodyChunk := Streaming.slice m.body start p
        let (header, chunkHeader, helper) ←
          headerOfChunk grow m first (p = m.body.length) bodyChunk.length chunkHeader r.helper
        let r : Round := {
          bytesLeft := r.bytesLeft - header.length - bodyChunk.length
          socketQueue := r.socketQueue ++ [header, bodyChunk]
          sendQHeaders := r.sendQHeaders ++ [header]
          helper := helper }
        if r.bytesLeft ≤ 0 then some (p, r) else chunkLoop m rounds p false chunkHeader r
      else some (start, r)

/-- The loop over the message queue, from `m_messageBytesSend` on: the messages whose last byte
is in this round, the new `m_messageBytesSend`, and the round. -/
def messageLoop : List Message → ℕ → Round → Option (List Message × ℕ × Round)
  | [], bytesSend, r => some ([], bytesSend, r)
  | m :: ms, bytesSend, r =>
      if r.bytesLeft ≤ 0 then some ([], bytesSend, r)
      else if m.size > chunkSize then do
        guard (m.hasHeader = false)
        let (stop, r) ← chunkLoop grow m m.body.length bytesSend (bytesSend = 0) none r
        let done := stop ≥ m.body.length
        let (finished, bytesSend, r) ← messageLoop ms (if done then 0 else stop) r
        some (if done then m :: finished else finished, bytesSend, r)
      else do
        let r ← pushMessage grow m r
        let (finished, bytesSend, r) ← messageLoop ms bytesSend r
        some (m :: finished, bytesSend, r)

end Round

/-! ## The connection -/

/-- What was handed to the socket: the buffers, and which messages they complete. -/
structure Handed where
  buffers : List (List UInt8)
  priority : List Message
  finished : List Message

/-- The bytes of a write. -/
def Handed.bytes (h : Handed) : List UInt8 := h.buffers.flatten

/-- The sending half of `NetworkManagerConnection`.  `inFlight` is the write that goes on while
`m_sendingInProgress` is set. -/
structure Sender where
  messageQueue : List Message
  priorityMessageQueue : List Message
  sentPriorityMessages : List Message
  sendQHeaders : List (List UInt8)
  messageBytesSend : ℕ
  messageBytesSent : ℤ
  inFlight : Option Handed
  helper : HelperBuffer

namespace Sender

/-- A new connection. -/
def create : Sender where
  messageQueue := []
  priorityMessageQueue := []
  sentPriorityMessages := []
  sendQHeaders := []
  messageBytesSend := 0
  messageBytesSent := 0
  inFlight := none
  helper := ⟨defaultPoolSize, defaultPoolSize⟩

/-- What `queueMessage` accepts. -/
def Accepts (m : Message) (priority : MessagePriority) : Prop :=
  ¬ (m.hasHeader = false ∧ m.serviceId = -1) ∧
    ¬ (m.hasHeader = true ∧ m.body.length > chunkSize) ∧
    ¬ (priority = .highPriority ∧ m.size > chunkSize)

instance (m : Message) (priority : MessagePriority) : Decidable (Accepts m priority) :=
  inferInstanceAs (Decidable (_ ∧ _ ∧ _))

/-- `queueMessage`; the call of `runMessageQueue` behind it is a step of its own. -/
def queueMessage (s : Sender) (m : Message) (priority : MessagePriority) : Sender :=
  if Accepts m priority then
    match priority with
    | .normalPriority => { s with messageQueue := s.messageQueue ++ [m] }
    | .highPriority => { s with priorityMessageQueue := s.priorityMessageQueue ++ [m] }
  else s

/-- `runMessageQueue` of a connection that is connected; `none` is a failed assertion. -/
def runMessageQueue (grow : ℕ → ℕ) (s : Sender) : Option Sender :=
  if s.inFlight.isSome ∨ (s.messageQueue = [] ∧ s.priorityMessageQueue = []) then some s
  else do
    let (sent, left, r) ← priorityLoop grow s.priorityMessageQueue {
      bytesLeft := 250 * 1024
      socketQueue := []
      sendQHeaders := s.sendQHeaders
      helper := s.helper }
    let (finished, bytesSend, r) ← messageLoop grow s.messageQueue s.messageBytesSend r
    some { s with
      priorityMessageQueue := left
      sentPriorityMessages := s.sentPriorityMessages ++ sent
      sendQHeaders := r.sendQHeaders
      messageBytesSend := bytesSend
      inFlight := some { buffers := r.socketQueue, priority := sent, finished := finished }
      helper := r.helper }

/-- **What `runMessageQueue` does**: nothing, or it starts a round with what the two loops take. -/
theorem runMessageQueue_cases {grow : ℕ → ℕ} {s t : Sender} (h : s.runMessageQueue grow = some t) :
    t = s ∨ s.inFlight = none ∧ ¬ (s.messageQueue = [] ∧ s.priorityMessageQueue = []) ∧
      ∃ sent left mid finished bytesSend r,
        priorityLoop grow s.priorityMessageQueue ⟨250 * 1024, [], s.sendQHeaders, s.helper⟩
          = some (sent, left, mid) ∧
        messageLoop grow s.messageQueue s.messageBytesSend mid = some (finished, bytesSend, r) ∧
        t = { s with
          priorityMessageQueue := left
          sentPriorityMessages := s.sentPriorityMessages ++ sent
          sendQHeaders := r.sendQHeaders
          messageBytesSend := bytesSend
          inFlight := some ⟨r.socketQueue, sent, finished⟩
          helper := r.helper } := by
  unfold runMessageQueue at h
  split at h
  · exact .inl (Option.some.inj h).symm
  · next hstart =>
    rw [not_or, Option.isSome_iff_ne_none, not_not] at hstart
    simp only [Option.bind_eq_bind, Option.bind_eq_some_iff] at h
    obtain ⟨⟨sent, left, mid⟩, hpriority, ⟨finished, bytesSend, r⟩, hmessages, h⟩ := h
    exact .inr ⟨hstart.1, hstart.2, sent, left, mid, finished, bytesSend, r, hpriority, hmessages,
      (Option.some.inj h).symm⟩

/-- `std::ceil(bodySize / (float) CHUNK_SIZE)`. -/
def chunksOf (bodySize : ℕ) : ℕ := SinglePrecision.ceilDiv (SinglePrecision.ofNat bodySize) chunkSize

/-- The bytes of a list of buffers. -/
def totalLength (buffers : List (List UInt8)) : ℕ := (buffers.map List.length).sum

/-- One message of the loop of `sentSomeBytes`: whether the bytes suffice for it, the headers
that are left, and the bytes.  A large message takes the sizes of its headers off the bytes also
when it stays; `none` is a failed assertion. -/
def removeMessage (m : Message) (headers : List (List UInt8)) (bytesLeft : ℤ) :
    Option (Bool × List (List UInt8) × ℤ) :=
  if m.size > chunkSize then
    if headers.length < chunksOf m.size then some (false, headers, bytesLeft)
    else if bytesLeft - totalLength (headers.take (chunksOf m.size)) < m.size then
      some (false, headers, bytesLeft - totalLength (headers.take (chunksOf m.size)))
    else
      some (true, headers.drop (chunksOf m.size),
        bytesLeft - totalLength (headers.take (chunksOf m.size)) - m.size)
  else if m.hasHeader = false then
    match headers with
    | [] => none
    | header :: headers =>
        if header.length > bytesLeft ∨ m.size > bytesLeft - header.length then
          some (false, header :: headers, bytesLeft)
        else some (true, headers, bytesLeft - header.length - m.size)
  else if m.size > bytesLeft then some (false, headers, bytesLeft)
  else some (true, headers, bytesLeft - m.size)

/-- The loop, over the priority messages that were sent and then the message queue: how many
messages it takes off, the headers that are left, and the bytes. -/
def removeWritten : List Message → List (List UInt8) → ℤ → Option (ℕ × List (List UInt8) × ℤ)
  | [], headers, bytesLeft => some (0, headers, bytesLeft)
  | m :: ms, headers, bytesLeft => do
      let (removed, headers, bytesLeft) ← removeMessage m headers bytesLeft
      if removed = false then some (0, headers, bytesLeft)
      else if bytesLeft ≤ 0 then some (1, headers, bytesLeft)
      else
        let (n, headers, bytesLeft) ← removeWritten ms headers bytesLeft
        some (n + 1, headers, bytesLeft)

/-- `sentSomeBytes` for a write that has succeeded; the call of `runMessageQueue` at its end is
a step of its own.  The number of bytes is added in 32 bits. -/
def sentSomeBytes (s : Sender) (bytesTransferred : ℕ) : Option Sender := do
  let (n, headers, bytesLeft) ← removeWritten (s.sentPriorityMessages ++ s.messageQueue)
    s.sendQHeaders ((s.messageBytesSent + bytesTransferred).bmod (2 ^ 32))
  some { s with
    sentPriorityMessages := s.sentPriorityMessages.drop n
    messageQueue := s.messageQueue.drop (n - s.sentPriorityMessages.length)
    sendQHeaders := headers
    messageBytesSent := bytesLeft
    inFlight := none }

/-- `sentSomeBytes` for a write that has failed. -/
def sentError (s : Sender) : Sender :=
  { s with messageBytesSend := 0, messageBytesSent := 0, inFlight := none }

end Sender

/-! ## Packets -/

/-- A header, if one is generated, and what follows it. -/
structure Packet where
  headers : List (List UInt8)
  body : List UInt8

def Packet.bytes (p : Packet) : List UInt8 := p.headers.flatten ++ p.body

/-- The number of chunks of `n` bytes. -/
def chunkCount (n : ℕ) : ℕ := (n + (chunkSize - 1)) / chunkSize

/-- Where the chunk with number `i` starts. -/
def chunkStart (m : Message) (i : ℕ) : ℕ := min (chunkSize * i) m.body.length

/-- The chunk with number `i`. -/
def chunkPacket (m : Message) (i : ℕ) : Packet where
  headers := [headerBytes (chunkFields m (i = 0) (i + 1 = chunkCount m.body.length))
    (Streaming.slice m.body (chunkStart m i) (chunkStart m (i + 1))).length]
  body := Streaming.slice m.body (chunkStart m i) (chunkStart m (i + 1))

/-- A message on the wire. -/
def packets (m : Message) : List Packet :=
  if m.size > chunkSize then (List.range (chunkCount m.body.length)).map (chunkPacket m)
  else if m.hasHeader then [⟨[], m.rawData.bytes⟩]
  else [⟨[simpleHeader m], m.rawData.bytes⟩]

theorem lt_chunkCount_iff {i n : ℕ} : i < chunkCount n ↔ chunkSize * i < n := by
  rw [chunkCount, chunkSize, Nat.lt_div_iff_mul_lt (by omega)]
  omega

theorem chunkStart_of_le {m : Message} {i : ℕ} (h : chunkCount m.body.length ≤ i) :
    chunkStart m i = m.body.length := by
  have hle : ¬ chunkSize * i < m.body.length := fun hlt => absurd (lt_chunkCount_iff.mpr hlt) (by omega)
  rw [chunkStart]
  omega

theorem chunkStart_of_lt {m : Message} {i : ℕ} (h : i < chunkCount m.body.length) :
    chunkStart m i = chunkSize * i := by
  have hlt := lt_chunkCount_iff.mp h
  rw [chunkStart]
  omega

theorem chunkStart_succ {m : Message} {i : ℕ} (h : i < chunkCount m.body.length) :
    min (chunkStart m i + chunkSize) m.body.length = chunkStart m (i + 1) := by
  rw [chunkStart_of_lt h, chunkStart, Nat.mul_succ]

theorem chunkStart_eq_length_iff {m : Message} {i : ℕ} :
    chunkStart m i = m.body.length ↔ chunkCount m.body.length ≤ i := by
  constructor
  · intro h
    by_contra hlt
    have hstart := chunkStart_of_lt (not_le.mp hlt)
    have := lt_chunkCount_iff.mp (not_le.mp hlt)
    omega
  · exact chunkStart_of_le

/-! ## What a round sends -/

/-- The round has sent the packets `sent`. -/
structure Extends (r r' : Round) (sent : List Packet) : Prop where
  socket : r'.socketQueue.flatten = r.socketQueue.flatten ++ sent.flatMap Packet.bytes
  headers : r'.sendQHeaders = r.sendQHeaders ++ sent.flatMap Packet.headers
  bytesLeft : r'.bytesLeft = r.bytesLeft - (sent.flatMap Packet.bytes).length

theorem Extends.refl (r : Round) : Extends r r [] := ⟨by simp, by simp, by simp⟩

theorem Extends.trans {r₁ r₂ r₃ : Round} {p q : List Packet} (h₁ : Extends r₁ r₂ p)
    (h₂ : Extends r₂ r₃ q) : Extends r₁ r₃ (p ++ q) where
  socket := by rw [h₂.socket, h₁.socket, List.flatMap_append, List.append_assoc]
  headers := by rw [h₂.headers, h₁.headers, List.flatMap_append, List.append_assoc]
  bytesLeft := by
    rw [h₂.bytesLeft, h₁.bytesLeft, List.flatMap_append, List.length_append]
    push_cast
    ring

section Spec

variable {grow : ℕ → ℕ}

theorem createHeader_eq_some {m : Message} {helper helper' : HelperBuffer} {header : List UInt8}
    (h : createHeader grow m helper = some (header, helper')) : header = simpleHeader m := by
  unfold createHeader at h
  simp only [Option.bind_eq_bind, Option.bind_eq_some_iff] at h
  obtain ⟨-, -, mid, -, h⟩ := h
  simp only [Option.some.injEq, Prod.mk.injEq] at h
  exact h.1.symm

/-- A message that is sent in one packet. -/
theorem pushMessage_spec {m : Message} {r r' : Round} (hsmall : ¬ m.size > chunkSize)
    (h : pushMessage grow m r = some r') : Extends r r' (packets m) := by
  unfold pushMessage at h
  rw [packets, if_neg hsmall]
  by_cases hown : m.hasHeader
  · rw [if_pos hown] at h ⊢
    obtain rfl := Option.some.inj h
    exact ⟨by simp [Packet.bytes], by simp, by simp [Packet.bytes, Message.size]⟩
  · rw [if_neg hown] at h ⊢
    simp only [Option.bind_eq_bind, Option.bind_eq_some_iff] at h
    obtain ⟨⟨header, helper⟩, hcreate, h⟩ := h
    obtain rfl := createHeader_eq_some hcreate
    simp only [Option.some.injEq] at h
    rw [← h]
    refine ⟨by simp [Packet.bytes], by simp, ?_⟩
    simp only [List.flatMap_cons, List.flatMap_nil, List.append_nil, Packet.bytes,
      List.flatten_cons, List.flatten_nil, List.length_append, Message.size]
    push_cast
    ring

/-- What is kept for the chunks that are neither first nor last. -/
def MiddleHeader (m : Message) (chunkHeader : Option (List UInt8)) : Prop :=
  ∀ header ∈ chunkHeader, header = headerBytes (chunkFields m false false) chunkSize

/-- The header of a chunk is the one that belongs to it, kept or built. -/
theorem headerOfChunk_spec {m : Message} {first last : Bool} {size : ℕ}
    {kept kept' : Option (List UInt8)} {helper helper' : HelperBuffer} {header : List UInt8}
    (hkept : MiddleHeader m kept) (hsize : last = false → size = chunkSize)
    (h : headerOfChunk grow m first last size kept helper = some (header, kept', helper')) :
    header = headerBytes (chunkFields m first last) size ∧
      (last = false → MiddleHeader m kept') := by
  unfold headerOfChunk at h
  split at h
  · rename_i header' hif
    by_cases hends : first ∨ last
    · rw [if_pos hends] at hif
      cases hif
    · rw [if_neg hends] at hif
      simp only [not_or, Bool.not_eq_true] at hends
      simp only [Option.some.injEq, Prod.mk.injEq] at h
      obtain ⟨rfl, rfl, -⟩ := h
      rw [hends.1, hends.2, hsize hends.2]
      exact ⟨hkept _ hif, fun _ => hkept⟩
  · simp only [Option.bind_eq_bind, Option.bind_eq_some_iff] at h
    obtain ⟨mid, -, h⟩ := h
    simp only [Option.some.injEq, Prod.mk.injEq] at h
    obtain ⟨rfl, rfl, -⟩ := h
    refine ⟨rfl, fun hlast => ?_⟩
    by_cases hfirst : first
    · rw [if_pos hfirst]
      exact hkept
    · rw [if_neg hfirst]
      rintro header ⟨⟩
      rw [hsize hlast, hlast, Bool.eq_false_iff.mpr hfirst]

theorem length_chunk {m : Message} {i : ℕ} (h : i + 1 < chunkCount m.body.length) :
    (Streaming.slice m.body (chunkStart m i) (chunkStart m (i + 1))).length = chunkSize := by
  have h1 := chunkStart_of_lt h
  have h0 := chunkStart_of_lt (m := m) (i := i) (by omega)
  have hlt := lt_chunkCount_iff.mp h
  rw [Streaming.slice, List.length_drop, List.length_take, h0, h1]
  rw [Nat.mul_succ] at hlt ⊢
  omega

/-- Behind the last chunk there is nothing to do. -/
theorem chunkLoop_of_le {m : Message} {rounds start : ℕ} {first : Bool}
    {kept : Option (List UInt8)} {r : Round} (h : m.body.length ≤ start) :
    chunkLoop grow m rounds start first kept r = some (start, r) := by
  cases rounds with
  | zero => rfl
  | succ rounds => rw [chunkLoop, if_neg (not_lt.mpr h)]

/-- **The chunks of a message.**  The loop sends some of the chunks from number `i` on, in
order, and stops before the last one only when the round is full. -/
theorem chunkLoop_spec {m : Message} : ∀ {rounds i : ℕ} {kept : Option (List UInt8)}
    {r r' : Round} {stop : ℕ}, MiddleHeader m kept → i ≤ chunkCount m.body.length →
    chunkCount m.body.length ≤ i + rounds →
    chunkLoop grow m rounds (chunkStart m i) (i = 0) kept r = some (stop, r') →
    ∃ j, i ≤ j ∧ j ≤ chunkCount m.body.length ∧ (i < chunkCount m.body.length → i < j) ∧
      Extends r r' ((List.range' i (j - i)).map (chunkPacket m)) ∧ stop = chunkStart m j ∧
      (j < chunkCount m.body.length → r'.bytesLeft ≤ 0) := by
  intro rounds
  induction rounds with
  | zero =>
    intro i kept r r' stop _ hle hge h
    obtain ⟨rfl, rfl⟩ : chunkStart m i = stop ∧ r = r' := by simpa [chunkLoop] using h
    refine ⟨i, le_rfl, hle, by omega, ?_, rfl, by omega⟩
    simpa using Extends.refl r
  | succ rounds ih =>
    intro i kept r r' stop hkept hle hge h
    rw [chunkLoop] at h
    by_cases hend : i < chunkCount m.body.length
    · have hlt : chunkStart m i < m.body.length := by
        rw [chunkStart_of_lt hend]
        exact lt_chunkCount_iff.mp hend
      rw [if_pos hlt] at h
      simp only [chunkStart_succ hend, Option.bind_eq_bind, Option.bind_eq_some_iff] at h
      obtain ⟨⟨header, kept', helper⟩, hheader, h⟩ := h
      have hlast : (decide (chunkStart m (i + 1) = m.body.length)) =
          decide (i + 1 = chunkCount m.body.length) := by
        rw [decide_eq_decide, chunkStart_eq_length_iff]
        omega
      rw [hlast] at hheader
      obtain ⟨rfl, hkept'⟩ := headerOfChunk_spec hkept
        (fun hno => length_chunk (by simp only [decide_eq_false_iff_not] at hno; omega)) hheader
      -- the round behind this chunk
      set mid : Round := {
        bytesLeft := r.bytesLeft
          - (headerBytes (chunkFields m (i = 0) (i + 1 = chunkCount m.body.length))
              (Streaming.slice m.body (chunkStart m i) (chunkStart m (i + 1))).length).length
          - (Streaming.slice m.body (chunkStart m i) (chunkStart m (i + 1))).length
        socketQueue := r.socketQueue
          ++ [headerBytes (chunkFields m (i = 0) (i + 1 = chunkCount m.body.length))
              (Streaming.slice m.body (chunkStart m i) (chunkStart m (i + 1))).length,
            Streaming.slice m.body (chunkStart m i) (chunkStart m (i + 1))]
        sendQHeaders := r.sendQHeaders
          ++ [headerBytes (chunkFields m (i = 0) (i + 1 = chunkCount m.body.length))
              (Streaming.slice m.body (chunkStart m i) (chunkStart m (i + 1))).length]
        helper := helper } with hmid
      have hone : Extends r mid [chunkPacket m i] := by
        refine ⟨by simp [hmid, chunkPacket, Packet.bytes], by simp [hmid, chunkPacket], ?_⟩
        simp only [hmid, chunkPacket, Packet.bytes, List.flatMap_cons, List.flatMap_nil,
          List.append_nil, List.flatten_cons, List.flatten_nil, List.length_append]
        push_cast
        ring
      by_cases hfull : mid.bytesLeft ≤ 0
      · rw [if_pos hfull] at h
        obtain ⟨rfl, rfl⟩ : chunkStart m (i + 1) = stop ∧ mid = r' := by simpa using h
        refine ⟨i + 1, by omega, hend, by omega, ?_, rfl, fun _ => hfull⟩
        rw [show i + 1 - i = 1 from by omega]
        simpa using hone
      · rw [if_neg hfull] at h
        by_cases hmore : i + 1 < chunkCount m.body.length
        · rw [show false = decide (i + 1 = 0) from by simp] at h
          obtain ⟨j, hij, hj, hprog, hext, hstop, hbudget⟩ :=
            ih (hkept' (by simp only [decide_eq_false_iff_not]; omega)) hend (by omega) h
          refine ⟨j, by omega, hj, by omega, ?_, hstop, hbudget⟩
          have hboth := hone.trans hext
          rw [show j - i = (j - (i + 1)) + 1 from by omega, List.range'_succ, List.map_cons]
          exact hboth
        · -- that was the last chunk
          have hcount : i + 1 = chunkCount m.body.length := by omega
          have hlen : m.body.length ≤ chunkStart m (i + 1) :=
            le_of_eq (chunkStart_of_le (le_of_eq hcount.symm)).symm
          rw [chunkLoop_of_le hlen] at h
          obtain ⟨rfl, rfl⟩ : chunkStart m (i + 1) = stop ∧ mid = r' := by simpa using h
          refine ⟨i + 1, by omega, hend, by omega, ?_, rfl, by omega⟩
          rw [show i + 1 - i = 1 from by omega]
          simpa using hone
    · have hcount : i = chunkCount m.body.length := by omega
      have hlen : ¬ chunkStart m i < m.body.length := by
        rw [chunkStart_of_le (le_of_eq hcount.symm)]
        exact lt_irrefl _
      rw [if_neg hlen] at h
      obtain ⟨rfl, rfl⟩ : chunkStart m i = stop ∧ r = r' := by simpa using h
      refine ⟨i, le_rfl, hle, by omega, ?_, rfl, by omega⟩
      simpa using Extends.refl r

/-- `k` packets of the first message of the queue have been sent, and `bytesSend` is
`m_messageBytesSend`. -/
def AtPacket (queue : List Message) (k bytesSend : ℕ) : Prop :=
  (k = 0 ∧ bytesSend = 0) ∨
    ∃ m ms, queue = m :: ms ∧ m.size > chunkSize ∧ 0 < k ∧ k < chunkCount m.body.length ∧
      bytesSend = chunkStart m k

theorem AtPacket.zero {queue : List Message} : AtPacket queue 0 0 := .inl ⟨rfl, rfl⟩

/-- At the start of a large message or inside it. -/
theorem AtPacket.of_large {m : Message} {ms : List Message} {k bytesSend : ℕ}
    (h : AtPacket (m :: ms) k bytesSend) (hlarge : m.size > chunkSize)
    (hbody : m.body.length = m.size) :
    k < chunkCount m.body.length ∧ bytesSend = chunkStart m k ∧
      decide (bytesSend = 0) = decide (k = 0) := by
  rcases h with ⟨rfl, rfl⟩ | ⟨m', ms', heq, -, hpos, hlt, rfl⟩
  · refine ⟨lt_chunkCount_iff.mpr ?_, by simp [chunkStart], rfl⟩
    rw [hbody]
    omega
  · obtain ⟨rfl, -⟩ : m = m' ∧ ms = ms' := by simpa using heq
    refine ⟨hlt, rfl, decide_eq_decide.mpr ?_⟩
    rw [chunkStart_of_lt hlt, chunkSize]
    omega

/-- A full round sends no more. -/
theorem messageLoop_of_full {ms : List Message} {bytesSend : ℕ} {r : Round}
    (h : r.bytesLeft ≤ 0) : messageLoop grow ms bytesSend r = some ([], bytesSend, r) := by
  cases ms with
  | nil => rfl
  | cons m ms => rw [messageLoop, if_pos h]

theorem body_length_of_noHeader {m : Message} (h : m.hasHeader = false) :
    m.body.length = m.size := by
  have hzero : m.headerSize = 0 := by simpa [Message.hasHeader] using h
  rw [Message.body, hzero, List.drop_zero, Message.size]

theorem chunkCount_le (n : ℕ) : chunkCount n ≤ n := by
  by_contra hlt
  have := lt_chunkCount_iff.mp (not_le.mp hlt)
  rw [chunkSize] at this
  omega

theorem packets_of_large {m : Message} (h : m.size > chunkSize) :
    packets m = (List.range (chunkCount m.body.length)).map (chunkPacket m) := by
  rw [packets, if_pos h]

/-- The packets up to number `j` are those up to number `k`, and the ones between. -/
theorem take_packets_append {m : Message} (h : m.size > chunkSize) {k j : ℕ} (hkj : k ≤ j)
    (hj : j ≤ chunkCount m.body.length) :
    (packets m).take j
      = (packets m).take k ++ (List.range' k (j - k)).map (chunkPacket m) := by
  rw [packets_of_large h, ← List.map_take, ← List.map_take, ← List.map_append, List.take_range,
    List.take_range, Nat.min_eq_left hj, Nat.min_eq_left (hkj.trans hj), List.range_eq_range',
    List.range_eq_range']
  congr 1
  have := @List.range'_append 0 k (j - k) 1
  rw [Nat.one_mul, Nat.zero_add] at this
  rw [this]
  congr 1
  omega

/-- **A round of the message queue.**  It sends the next packets of the queue, in order: those
that complete the messages `finished`, and the first `k'` of the message behind them.  It stops
only when the round is full or the queue is done, and sends something if it can. -/
theorem messageLoop_spec : ∀ {queue : List Message} {k bytesSend bytesSend' : ℕ} {r r' : Round}
    {finished : List Message}, AtPacket queue k bytesSend →
    messageLoop grow queue bytesSend r = some (finished, bytesSend', r') →
    ∃ left k' sent, queue = finished ++ left ∧ AtPacket left k' bytesSend' ∧
      Extends r r' sent ∧
      finished.flatMap packets ++ (left.flatMap packets).take k'
        = (queue.flatMap packets).take k ++ sent ∧
      (left = [] ∨ r'.bytesLeft ≤ 0) ∧ (0 < r.bytesLeft → queue ≠ [] → sent ≠ []) ∧
      ∀ m ∈ finished, m.size > chunkSize → m.hasHeader = false := by
  intro queue
  induction queue with
  | nil =>
    intro k bytesSend bytesSend' r r' finished hat h
    obtain ⟨rfl, rfl, rfl⟩ : [] = finished ∧ bytesSend = bytesSend' ∧ r = r' := by
      simpa [messageLoop] using h
    exact ⟨[], k, [], rfl, hat, Extends.refl r, by simp, .inl rfl, by simp, by simp⟩
  | cons m ms ih =>
    intro k bytesSend bytesSend' r r' finished hat h
    by_cases hfull : r.bytesLeft ≤ 0
    · rw [messageLoop_of_full hfull] at h
      obtain ⟨rfl, rfl, rfl⟩ : [] = finished ∧ bytesSend = bytesSend' ∧ r = r' := by
        simpa using h
      exact ⟨m :: ms, k, [], rfl, hat, Extends.refl r, by simp, .inr hfull, by omega, by simp⟩
    rw [messageLoop, if_neg hfull] at h
    by_cases hlarge : m.size > chunkSize
    · rw [if_pos hlarge] at h
      simp only [Option.bind_eq_bind, Option.bind_eq_some_iff] at h
      obtain ⟨_, hguard, ⟨stop, mid⟩, hchunks, ⟨fin, bytesSend₁, r₁⟩, hrest, h⟩ := h
      have hown : m.hasHeader = false := by
        by_contra hno
        rw [guard, if_neg hno] at hguard
        cases hguard
      have hbody := body_length_of_noHeader hown
      obtain ⟨hk, hstart, hfirst⟩ := hat.of_large hlarge hbody
      rw [hstart] at hchunks hfirst
      rw [hfirst] at hchunks
      obtain ⟨j, hkj, hj, hprog, hext, rfl, hbudget⟩ :=
        chunkLoop_spec (by rintro header ⟨⟩) (le_of_lt hk)
          (le_trans (chunkCount_le _) (Nat.le_add_left _ _)) hchunks
      simp only at hrest h
      by_cases hdone : j = chunkCount m.body.length
      · -- the message is done, and the loop goes on with the next one
        have hstop : chunkStart m j ≥ m.body.length :=
          le_of_eq (chunkStart_of_le (le_of_eq hdone.symm)).symm
        rw [if_pos hstop] at hrest h
        obtain ⟨rfl, rfl, rfl⟩ : m :: fin = finished ∧ bytesSend₁ = bytesSend' ∧ r₁ = r' := by
          simpa using h
        obtain ⟨left, k', sent, rfl, hat', hext', heq, hstops, -, hnone⟩ :=
          ih AtPacket.zero hrest
        have hall : (packets m).take j = packets m := by
          apply List.take_of_length_le
          rw [packets_of_large hlarge, List.length_map, List.length_range, hdone]
        have hsplit := take_packets_append hlarge (le_of_lt (hprog hk)) hj
        rw [hall] at hsplit
        refine ⟨left, k', (List.range' k (j - k)).map (chunkPacket m) ++ sent, rfl, hat',
          hext.trans hext', ?_, hstops, fun _ _ hnil => ?_,
          List.forall_mem_cons.mpr ⟨fun _ => hown, hnone⟩⟩
        · have hle : k ≤ (packets m).length := by
            rw [packets_of_large hlarge, List.length_map, List.length_range]
            exact le_of_lt hk
          rw [List.flatMap_cons, List.flatMap_cons, List.append_assoc, heq, List.take_zero,
            List.nil_append, List.take_append_of_le_length hle, ← List.append_assoc, ← hsplit]
        · have hlen := congrArg List.length hnil
          simp only [List.length_append, List.length_map, List.length_range', List.length_nil]
            at hlen
          have := hprog hk
          omega
      · -- the round is full
        have hlt : j < chunkCount m.body.length := by omega
        have hstop : ¬ chunkStart m j ≥ m.body.length := by
          rw [chunkStart_of_lt hlt]
          exact not_le.mpr (lt_chunkCount_iff.mp hlt)
        rw [if_neg hstop, messageLoop_of_full (hbudget hlt)] at hrest
        rw [if_neg hstop] at h
        obtain ⟨rfl, rfl, rfl⟩ : [] = fin ∧ chunkStart m j = bytesSend₁ ∧ mid = r₁ := by
          simpa using hrest
        obtain ⟨rfl, rfl, rfl⟩ : [] = finished ∧ chunkStart m j = bytesSend' ∧ mid = r' := by
          simpa using h
        have hpos := hprog hk
        have hle : j ≤ (packets m).length := by
          rw [packets_of_large hlarge, List.length_map, List.length_range]
          exact hj
        refine ⟨m :: ms, j, (List.range' k (j - k)).map (chunkPacket m), rfl,
          .inr ⟨m, ms, rfl, hlarge, by omega, hlt, rfl⟩, hext, ?_, .inr (hbudget hlt),
          fun _ _ hnil => ?_, by simp⟩
        · rw [List.flatMap_nil, List.nil_append, List.flatMap_cons,
            List.take_append_of_le_length hle, List.take_append_of_le_length (by omega),
            take_packets_append hlarge (le_of_lt hpos) hj]
        · have hlen := congrArg List.length hnil
          simp only [List.length_map, List.length_range', List.length_nil] at hlen
          omega
    · -- a message that is sent in one packet
      obtain ⟨rfl, rfl⟩ : k = 0 ∧ bytesSend = 0 := by
        rcases hat with h0 | ⟨m', ms', heq, hlarge', -⟩
        · exact h0
        · obtain ⟨rfl, -⟩ : m = m' ∧ ms = ms' := by simpa using heq
          exact absurd hlarge' hlarge
      rw [if_neg hlarge] at h
      simp only [Option.bind_eq_bind, Option.bind_eq_some_iff] at h
      obtain ⟨mid, hpush, ⟨fin, bytesSend₁, r₁⟩, hrest, h⟩ := h
      obtain ⟨rfl, rfl, rfl⟩ : m :: fin = finished ∧ bytesSend₁ = bytesSend' ∧ r₁ = r' := by
        simpa using h
      obtain ⟨left, k', sent, rfl, hat', hext', heq, hstops, -, hnone⟩ := ih AtPacket.zero hrest
      refine ⟨left, k', packets m ++ sent, rfl, hat', (pushMessage_spec hlarge hpush).trans hext',
        ?_, hstops, fun _ _ hnil => ?_,
        List.forall_mem_cons.mpr ⟨fun h => absurd h hlarge, hnone⟩⟩
      · rw [List.flatMap_cons, List.append_assoc, heq, List.take_zero, List.take_zero,
          List.nil_append, List.nil_append]
      · have hne : packets m ≠ [] := by
          rw [packets, if_neg hlarge]
          split <;> simp
        exact hne (List.append_eq_nil_iff.mp hnil).1

/-- **A round of the priority queue.**  It sends the first messages of the queue. -/
theorem priorityLoop_spec : ∀ {queue sent left : List Message} {r r' : Round},
    (∀ m ∈ queue, ¬ m.size > chunkSize) →
    priorityLoop grow queue r = some (sent, left, r') →
    queue = sent ++ left ∧ Extends r r' (sent.flatMap packets) ∧ (queue ≠ [] → sent ≠ []) ∧
      (left = [] ∨ r'.bytesLeft ≤ 0) := by
  intro queue
  induction queue with
  | nil =>
    intro sent left r r' _ h
    obtain ⟨rfl, rfl, rfl⟩ : [] = sent ∧ [] = left ∧ r = r' := by simpa [priorityLoop] using h
    exact ⟨rfl, Extends.refl r, by simp, .inl rfl⟩
  | cons m ms ih =>
    intro sent left r r' hsmall h
    rw [priorityLoop] at h
    simp only [Option.bind_eq_bind, Option.bind_eq_some_iff] at h
    obtain ⟨mid, hpush, h⟩ := h
    have hone := pushMessage_spec (hsmall m (by simp)) hpush
    by_cases hfull : mid.bytesLeft ≤ 0
    · rw [if_pos hfull] at h
      obtain ⟨rfl, rfl, rfl⟩ : [m] = sent ∧ ms = left ∧ mid = r' := by simpa using h
      exact ⟨rfl, by simpa using hone, by simp, .inr hfull⟩
    · rw [if_neg hfull] at h
      simp only [Option.bind_eq_some_iff] at h
      obtain ⟨⟨sent', left', r₁⟩, hrest, h⟩ := h
      obtain ⟨rfl, rfl, rfl⟩ : m :: sent' = sent ∧ left' = left ∧ r₁ = r' := by simpa using h
      obtain ⟨rfl, hext, -, hstops⟩ := ih (fun x hx => hsmall x (by simp [hx])) hrest
      exact ⟨rfl, by simpa using hone.trans hext, by simp, hstops⟩

end Spec

/-! ## What a write takes off -/

namespace Sender

/-- The headers that are generated for a message. -/
def headersOf (m : Message) : List (List UInt8) := (packets m).flatMap Packet.headers

/-- The number of chunks of the message comes out right in single precision. -/
def ExactCount (m : Message) : Prop :=
  m.size > chunkSize → chunksOf m.size = chunkCount m.size

instance (m : Message) : Decidable (ExactCount m) :=
  inferInstanceAs (Decidable (m.size > chunkSize → chunksOf m.size = chunkCount m.size))

/-- Up to sixteen megabytes it does. -/
theorem exactCount_of_lt {m : Message} (h : m.size < 2 ^ 24) : ExactCount m := fun hlarge =>
  SinglePrecision.ceilDiv_of_lt (by decide) (le_of_lt hlarge) h

/-- A message that `sentSomeBytes` counts rightly: a large one has no header of its own, and the
number of its chunks is right. -/
def Counted (m : Message) : Prop :=
  m.size > chunkSize → m.hasHeader = false ∧ chunksOf m.size = chunkCount m.size

theorem length_headersOf_large {m : Message} (h : m.size > chunkSize) :
    (headersOf m).length = chunkCount m.body.length := by
  rw [headersOf, packets_of_large h, List.flatMap_map]
  simp [chunkPacket]

theorem headersOf_small {m : Message} (h : ¬ m.size > chunkSize) :
    headersOf m = if m.hasHeader then [] else [simpleHeader m] := by
  rw [headersOf, packets, if_neg h]
  split <;> simp

@[simp] theorem totalLength_append (x y : List (List UInt8)) :
    totalLength (x ++ y) = totalLength x + totalLength y := by
  simp [totalLength]

theorem totalLength_pos {headers : List (List UInt8)} (h : ∀ x ∈ headers, 0 < x.length)
    (hne : headers ≠ []) : 0 < totalLength headers := by
  cases headers with
  | nil => exact absurd rfl hne
  | cons x xs =>
    have := h x (by simp)
    simp only [totalLength, List.map_cons, List.sum_cons]
    omega

theorem totalLength_take_add_drop (headers : List (List UInt8)) (n : ℕ) :
    totalLength (headers.take n) + totalLength (headers.drop n) = totalLength headers := by
  rw [← totalLength_append, List.take_append_drop]

/-- One message for which the headers and the bytes are there. -/
theorem removeMessage_spec {m : Message} {headers : List (List UInt8)} {bytesLeft : ℤ}
    (hm : Counted m) (hcount : (headersOf m).length ≤ headers.length)
    (hbytes : (totalLength (headers.take (headersOf m).length) + m.size : ℕ) ≤ bytesLeft) :
    removeMessage m headers bytesLeft = some (true, headers.drop (headersOf m).length,
      bytesLeft - (totalLength (headers.take (headersOf m).length) + m.size : ℕ)) := by
  unfold removeMessage
  by_cases hlarge : m.size > chunkSize
  · obtain ⟨hown, hchunks⟩ := hm hlarge
    have hlen := length_headersOf_large hlarge
    rw [body_length_of_noHeader hown] at hlen
    rw [hlen] at hcount hbytes ⊢
    rw [if_pos hlarge, hchunks, if_neg (by omega), if_neg (by push_cast at hbytes; omega)]
    congr 3
    push_cast
    ring
  · rw [if_neg hlarge]
    rw [headersOf_small hlarge] at hcount hbytes ⊢
    by_cases hown : m.hasHeader = false
    · rw [if_pos hown]
      simp only [hown, Bool.false_eq_true, if_false, List.length_singleton] at hcount hbytes ⊢
      cases headers with
      | nil => simp at hcount
      | cons header headers =>
        simp only [List.take_succ_cons, List.take_zero, totalLength, List.map_cons, List.map_nil,
          List.sum_cons, List.sum_nil, List.drop_succ_cons, List.drop_zero] at hbytes ⊢
        push_cast at hbytes
        rw [if_neg (by omega)]
        congr 3
        push_cast
        ring
    · rw [if_neg hown]
      simp only [hown, if_true, List.length_nil, List.take_zero, List.drop_zero, totalLength,
        List.map_nil, List.sum_nil, Nat.zero_add] at hbytes ⊢
      rw [if_neg (by omega)]

/-- A message takes at least one byte. -/
theorem size_pos_of_noHeaders {m : Message} (h : (headersOf m).length = 0) : 0 < m.size := by
  by_cases hlarge : m.size > chunkSize
  · omega
  · rw [headersOf_small hlarge] at h
    by_cases hown : m.hasHeader = true
    · have hsize := m.headerSize_le
      have hne : m.headerSize ≠ 0 := by simpa [Message.hasHeader] using hown
      rw [Message.size]
      omega
    · simp [hown] at h

/-- The number of headers of a list of messages, and the bytes that are not headers. -/
def headerCount (ms : List Message) : ℕ := (ms.map fun m => (headersOf m).length).sum

def bodyBytes (ms : List Message) : ℕ := (ms.map Message.size).sum

/-- Messages that are done leave something to write, headers or bytes. -/
theorem bytes_pos_of_ne_nil {ms : List Message} {headers : List (List UInt8)} {k : ℕ}
    (hpos : ∀ x ∈ headers, 0 < x.length) (hcount : headerCount ms + k = headers.length)
    (hne : ms ≠ []) : 0 < totalLength headers + bodyBytes ms := by
  cases ms with
  | nil => exact absurd rfl hne
  | cons m ms =>
    simp only [headerCount, List.map_cons, List.sum_cons] at hcount
    by_cases hzero : (headersOf m).length = 0
    · have := size_pos_of_noHeaders hzero
      simp only [bodyBytes, List.map_cons, List.sum_cons]
      omega
    · have hne' : headers ≠ [] := by
        rintro rfl
        simp only [List.length_nil] at hcount
        omega
      have := totalLength_pos hpos hne'
      omega

/-- The queue behind the messages that are done: nothing of it was written, or `k` chunks of a
message that has more. -/
def Unfinished (queue : List Message) (k rest : ℕ) : Prop :=
  (k = 0 ∧ rest = 0) ∨
    ∃ m ms, queue = m :: ms ∧ m.size > chunkSize ∧ 0 < k ∧ k < chunksOf m.size

/-- **What a write takes off.**  When the headers and bytes are those of the messages `done` and
of `k` chunks of the message behind them, then exactly `done` are taken off, with as many
headers as they have. -/
theorem removeWritten_spec {queue : List Message} {k rest : ℕ} (hq : Unfinished queue k rest) :
    ∀ {done : List Message} {headers : List (List UInt8)} {bytesLeft : ℤ},
    (∀ m ∈ done, Counted m) → (∀ x ∈ headers, 0 < x.length) →
    headerCount done + k = headers.length →
    bytesLeft = (totalLength headers + bodyBytes done + rest : ℕ) →
    (done ≠ [] ∨ 0 < k ∨ queue = []) →
    removeWritten (done ++ queue) headers bytesLeft =
      some (done.length, headers.drop (headerCount done),
        ((totalLength (headers.drop (headerCount done)) + rest : ℕ) : ℤ)) := by
  intro done
  induction done with
  | nil =>
    intro headers bytesLeft _ hpos hcount hbytes hsome
    simp only [headerCount, bodyBytes, List.map_nil, List.sum_nil, Nat.zero_add, Nat.add_zero,
      List.drop_zero, List.length_nil, List.nil_append] at hcount hbytes ⊢
    rw [hbytes]
    rcases hq with ⟨rfl, rfl⟩ | ⟨m, ms, rfl, hlarge, hk, hlt⟩
    · obtain rfl : queue = [] := by simpa using hsome
      rfl
    · -- not all headers of the next message are there
      have hstay : removeMessage m headers ((totalLength headers + rest : ℕ) : ℤ)
          = some (false, headers, ((totalLength headers + rest : ℕ) : ℤ)) := by
        unfold removeMessage
        rw [if_pos hlarge, if_pos (by omega)]
      rw [removeWritten, hstay]
      rfl
  | cons m done ih =>
    intro headers bytesLeft hcounted hpos hcount hbytes _
    simp only [headerCount, bodyBytes, List.map_cons, List.sum_cons] at hcount hbytes ih ⊢
    have hsplit := totalLength_take_add_drop headers (headersOf m).length
    have hdrop : ∀ x ∈ headers.drop (headersOf m).length, 0 < x.length :=
      fun x hx => hpos x (List.mem_of_mem_drop hx)
    have hlen : (done.map fun m => (headersOf m).length).sum + k
        = (headers.drop (headersOf m).length).length := by
      rw [List.length_drop]
      omega
    have hremove : removeMessage m headers bytesLeft = some (true,
        headers.drop (headersOf m).length,
        bytesLeft - (totalLength (headers.take (headersOf m).length) + m.size : ℕ)) :=
      removeMessage_spec (hcounted m (by simp)) (by omega) (by omega)
    set left : ℤ := bytesLeft -
      (totalLength (headers.take (headersOf m).length) + m.size : ℕ) with hleft
    have hleft' : left = (totalLength (headers.drop (headersOf m).length)
        + (done.map Message.size).sum + rest : ℕ) := by
      rw [hleft, hbytes]
      push_cast
      omega
    rw [List.cons_append, removeWritten, hremove]
    simp only [Option.bind_eq_bind, Option.bind_some, Bool.true_eq_false, if_false]
    by_cases hstop : left ≤ 0
    · -- no bytes are left, so this was the last message and nothing is begun
      have hdone : done = [] := by
        by_contra hne
        have := bytes_pos_of_ne_nil hdrop hlen hne
        rw [bodyBytes] at this
        omega
      subst hdone
      simp only [List.map_nil, List.sum_nil, Nat.add_zero, Nat.zero_add] at hlen hleft' ⊢
      rw [if_pos hstop, hleft']
      rfl
    · rw [if_neg hstop]
      have hsome : done ≠ [] ∨ 0 < k ∨ queue = [] := by
        by_contra hno
        push Not at hno
        obtain ⟨rfl, hk, -⟩ := hno
        rcases hq with ⟨rfl, rfl⟩ | ⟨m', ms', -, -, hk', -⟩
        · have hnil : headers.drop (headersOf m).length = [] :=
            List.length_eq_zero_iff.mp (by rw [← hlen]; rfl)
          rw [hnil] at hleft'
          simp [totalLength] at hleft'
          omega
        · omega
      rw [ih (fun x hx => hcounted x (by simp [hx])) hdrop hlen hleft' hsome, List.drop_drop]
      rfl

/-! ## Counting packets -/

/-- The bytes of packets that are not generated headers. -/
def bodySum (ps : List Packet) : ℕ := (ps.map fun p => p.body.length).sum

@[simp] theorem bodySum_append (p q : List Packet) : bodySum (p ++ q) = bodySum p + bodySum q := by
  simp [bodySum]

theorem length_flatMap_bytes (ps : List Packet) :
    (ps.flatMap Packet.bytes).length = totalLength (ps.flatMap Packet.headers) + bodySum ps := by
  induction ps with
  | nil => rfl
  | cons p ps ih =>
    have hp : p.bytes.length = totalLength p.headers + p.body.length := by
      rw [Packet.bytes, List.length_append, List.length_flatten]
      rfl
    have hsum : bodySum (p :: ps) = p.body.length + bodySum ps := by simp [bodySum]
    rw [List.flatMap_cons, List.flatMap_cons, List.length_append, ih, totalLength_append, hp, hsum]
    omega

/-- The first `k` chunks of a message end where the chunk with number `k` starts, and have a
header each. -/
theorem take_packets_large {m : Message} (h : m.size > chunkSize) : ∀ {k : ℕ},
    k ≤ chunkCount m.body.length →
    bodySum ((packets m).take k) = chunkStart m k ∧
      (((packets m).take k).flatMap Packet.headers).length = k := by
  intro k
  induction k with
  | zero =>
    intro _
    simp [bodySum, chunkStart]
  | succ k ih =>
    intro hk
    obtain ⟨hbody, hheaders⟩ := ih (by omega)
    have hstep : (packets m).take (k + 1)
        = (packets m).take k ++ (List.range' k (k + 1 - k)).map (chunkPacket m) :=
      take_packets_append h (Nat.le_succ k) hk
    rw [Nat.add_sub_cancel_left] at hstep
    have hlen : (Streaming.slice m.body (chunkStart m k) (chunkStart m (k + 1))).length
        = chunkStart m (k + 1) - chunkStart m k := by
      have hle : chunkStart m (k + 1) ≤ m.body.length := min_le_right _ _
      rw [Streaming.slice, List.length_drop, List.length_take]
      omega
    have hmono : chunkStart m k ≤ chunkStart m (k + 1) := by
      rw [chunkStart, chunkStart, chunkSize]
      omega
    rw [hstep, bodySum_append, List.flatMap_append,
      List.length_append, hbody, hheaders]
    constructor
    · simp only [bodySum, List.range'_one, List.map_cons, List.map_nil, List.sum_cons,
        List.sum_nil, chunkPacket, hlen]
      omega
    · simp [chunkPacket]

theorem bodySum_packets {m : Message} (h : m.size > chunkSize → m.hasHeader = false) :
    bodySum (packets m) = m.size := by
  by_cases hlarge : m.size > chunkSize
  · have hall : (packets m).take (chunkCount m.body.length) = packets m := by
      apply List.take_of_length_le
      rw [packets_of_large hlarge, List.length_map, List.length_range]
    have hsum := (take_packets_large hlarge (le_refl (chunkCount m.body.length))).1
    rw [hall, chunkStart_of_le le_rfl, body_length_of_noHeader (h hlarge)] at hsum
    exact hsum
  · rw [packets, if_neg hlarge]
    split <;> simp [bodySum, Message.size]

theorem bodySum_flatMap {ms : List Message}
    (h : ∀ m ∈ ms, m.size > chunkSize → m.hasHeader = false) :
    bodySum (ms.flatMap packets) = bodyBytes ms := by
  induction ms with
  | nil => rfl
  | cons m ms ih =>
    rw [List.flatMap_cons, bodySum_append, bodySum_packets (h m (by simp)),
      ih (fun x hx => h x (by simp [hx])), bodyBytes, bodyBytes, List.map_cons, List.sum_cons]

theorem length_flatMap_headers (ms : List Message) :
    ((ms.flatMap packets).flatMap Packet.headers).length = headerCount ms := by
  induction ms with
  | nil => rfl
  | cons m ms ih =>
    rw [List.flatMap_cons, List.flatMap_append, List.length_append, ih, headerCount, headerCount,
      List.map_cons, List.sum_cons, headersOf]

/-- What has been sent of the first message of a queue. -/
theorem take_flatMap_packets {queue : List Message} {k bytesSend : ℕ}
    (h : AtPacket queue k bytesSend) :
    bodySum ((queue.flatMap packets).take k) = bytesSend ∧
      (((queue.flatMap packets).take k).flatMap Packet.headers).length = k := by
  rcases h with ⟨rfl, rfl⟩ | ⟨m, ms, rfl, hlarge, -, hlt, rfl⟩
  · simp [bodySum]
  · have hle : k ≤ (packets m).length := by
      rw [packets_of_large hlarge, List.length_map, List.length_range]
      exact le_of_lt hlt
    rw [List.flatMap_cons, List.take_append_of_le_length hle]
    exact take_packets_large hlarge (le_of_lt hlt)

/-- Every generated header has at least the two bytes of its size. -/
theorem headers_pos {ms : List Message} {p : Packet} (hp : p ∈ ms.flatMap packets) :
    ∀ x ∈ p.headers, 0 < x.length := by
  obtain ⟨m, -, hp⟩ := List.mem_flatMap.mp hp
  have hpos : ∀ fields size, 0 < (headerBytes fields size).length := by
    intro fields size
    simp [headerBytes]
  rw [packets] at hp
  split at hp
  · obtain ⟨i, -, rfl⟩ := List.mem_map.mp hp
    intro x hx
    obtain rfl := List.mem_singleton.mp hx
    exact hpos _ _
  · split at hp
    · obtain rfl := List.mem_singleton.mp hp
      intro x hx
      cases hx
    · obtain rfl := List.mem_singleton.mp hp
      intro x hx
      obtain rfl := List.mem_singleton.mp hx
      exact hpos _ _

end Sender

end Network
