/-
# Receiving packets

The receiving half of `NetworkManagerConnection` (`libs/networkmanager/NetworkManager.cpp`):
`receivedSomeBytes` cuts the byte stream into packets, `processPacket` reads the header of a
packet, puts the chunks of a large message together again and hands the messages to the
callbacks.

A packet starts with its length in two bytes.  Its header is read from a slice of that length
that begins behind the two bytes, so the slice ends two bytes behind the packet.  The model
therefore hands `processPacket` the memory from the packet on: what is left of the receive
buffer and the two bytes of memory behind it.

Before the next receive, `reserve` sees to it that there is room for a packet behind the bytes
that were not processed.  When it moves them to new memory it copies them out of an array that
it has let go of, so what it copies is whatever is found there.

An assertion that fails, a copy of a negative length, a copy to a pool without memory and a
loop that does not end are faults: they are the last thing a connection does.  A message whose
body starts behind its end is none: it is handed to the callbacks like the others.
-/
import Hub.MessageParser
import Hub.NetworkMessage
import Hub.PoolStorage
import Hub.Runs
import Mathlib

namespace Streaming.MessageParser

theorem length_zeroBytes : (List.replicate 8 (0 : UInt8)).length = 8 := rfl

/-- The `switch` of `next` for a slice of a larger memory.  The eight bytes of a `double` may
lie behind the slice; no header field is read as a `double`, so they are taken to be zero. -/
def readValueOver (p : MessageParser) (type : Option ValueType) : ParsedType × MessageParser :=
  match p.readValue type with
  | some r => r
  | none => (.foundTag, { p with
      value := .double ⟨List.replicate 8 0, length_zeroBytes⟩
      position := p.position + 1 + 8 })

/-- `next` for a slice of a larger memory. -/
def nextOver (p : MessageParser) : ParsedType × MessageParser :=
  match p.data[p.position]? with
  | none => (.endOfDocument, p)
  | some byte =>
      match { p with valueState := .valueParsed, tag := (byte >>> 3).toUInt32 }.readTag with
      | (false, p) => (.error, p)
      | (true, p) => p.readValueOver (ValueType.ofByte byte)

/-- Inside the slice this is `next`. -/
theorem nextOver_of_next {p : MessageParser} {r : ParsedType × MessageParser}
    (h : p.next = some r) : p.nextOver = r := by
  unfold next at h
  unfold nextOver
  by_cases hend : p.length ≤ p.position
  · have hnone : p.data[p.position]? = none := List.getElem?_eq_none hend
    rw [if_pos hend, Option.some.injEq] at h
    rw [hnone]
    exact h
  · rw [if_neg hend] at h
    have hlt : p.position < p.data.length := not_le.mp hend
    obtain ⟨byte, hbyte⟩ : ∃ byte, p.data[p.position]? = some byte :=
      ⟨_, List.getElem?_eq_getElem hlt⟩
    simp only [hbyte, Option.bind_eq_bind, Option.bind_some] at h ⊢
    rcases hread :
      { p with valueState := .valueParsed, tag := (byte >>> 3).toUInt32 }.readTag with ⟨ok, q⟩
    rw [hread] at h ⊢
    cases ok with
    | false =>
      rw [Option.some.injEq] at h
      exact h
    | true =>
      simp only at h ⊢
      rw [readValueOver, h]

end Streaming.MessageParser

namespace Network

open Streaming (ConstBuffer MessageParser)

/-! ## The header of a packet -/

/-- The local variables of `processPacket` that its loop over the header fields sets.
`lastInSequence` is `-1`, `0` or `1` in the source. -/
structure PacketHeader where
  headerSize : ℕ := 0
  messageId : Int32 := -1
  serviceId : Int32 := -1
  lastInSequence : Option Bool := none
  sequenceSize : Int32 := -1
  isPing : Bool := false
  headerData : Std.TreeMap Int32 Int32 := ∅

/-- The `switch` over the tag of a field other than `HeaderEnd`; `none` when the field does
not have the type it should have. -/
def PacketHeader.addField (h : PacketHeader) (p : MessageParser) : Option PacketHeader :=
  if p.tag = Network.messageId then
    if p.isInt then some { h with messageId := p.intData } else none
  else if p.tag = Network.serviceId then
    if p.isInt then some { h with serviceId := p.intData } else none
  else if p.tag = Network.lastInSequence then
    if p.isBool then some { h with lastInSequence := some p.boolData } else none
  else if p.tag = Network.sequenceStart then
    if p.isInt then some { h with sequenceSize := p.intData } else none
  else if p.tag = Network.ping then some { h with isPing := true }
  else if p.isInt ∧ p.tag < 0xFFFFFF then
    some { h with headerData := h.headerData.insertIfNew p.tag.toInt32 p.intData }
  else some h

/-- How the loop over the header fields ends. -/
inductive HeaderEnding where
  | complete (h : PacketHeader)
  | malformed
  | endless

/-- The loop over the header fields, with a bound on its rounds.  The source calls `next` once
more behind `HeaderEnd` and does not look at the result. -/
def headerLoop : ℕ → MessageParser → PacketHeader → HeaderEnding
  | 0, _, _ => .endless
  | rounds + 1, p, h =>
      match p.nextOver with
      | (.foundTag, p) =>
          if p.tag = Network.headerEnd then .complete { h with headerSize := p.position }
          else
            match h.addField p with
            | none => .malformed
            | some h => headerLoop rounds p h
      | _ => .malformed

/-- `MAX_MESSAGE_SIZE`. -/
def maxMessageSize : ℕ := 9000

/-- `rawHeader & 0xFFFF`. -/
def packetLength (data : List UInt8) : ℕ := (data.getD 0 0).toNat + 256 * (data.getD 1 0).toNat

theorem packetLength_lt (data : List UInt8) : packetLength data < 2 ^ 16 := by
  have h0 := (data.getD 0 0).toNat_lt
  have h1 := (data.getD 1 0).toNat_lt
  rw [packetLength]
  omega

/-- The slice that the parser gets: `packetLength` bytes from behind the length on. -/
def headerSlice (data : List UInt8) : ConstBuffer where
  bytes := (data.drop 2).take (packetLength data)
  size_lt := by
    have h := packetLength_lt data
    rw [List.length_take]
    omega

/-- The header of the packet at `data`.  Every round but the last starts inside the slice, so
with one round more than the slice has bytes, a loop that has not ended was twice at the same
position and does not end at all. -/
def readHeader (data : List UInt8) : HeaderEnding :=
  headerLoop (packetLength data + 1) (MessageParser.create (headerSlice data)) {}

/-- The bytes of the packet behind its header. -/
def packetBody (data : List UInt8) (h : PacketHeader) : List UInt8 :=
  (data.take (packetLength data)).drop (h.headerSize + 2)

/-! ## The connection -/

/-- `m_chunkedMessageBuffer`: the bytes between its pointers, and `m_size`.  After `clear` there
is no memory, and the pointers are null. -/
structure ChunkBuffer where
  size : ℕ
  used : Option (List UInt8)
  used_le : (used.getD []).length ≤ size
  size_lt : size < 2 ^ 31

namespace ChunkBuffer

/-- `BufferPool(default_size)`. -/
def create (size : ℕ) (h : size < 2 ^ 31) : ChunkBuffer where
  size := size
  used := some []
  used_le := Nat.zero_le _
  size_lt := h

/-- `capacity`. -/
def capacity (b : ChunkBuffer) : ℕ := b.size - (b.used.getD []).length

/-- `clear`. -/
def clear (b : ChunkBuffer) : ChunkBuffer where
  size := b.size
  used := none
  used_le := Nat.zero_le _
  size_lt := b.size_lt

/-- The copy of `bytes` to `data()` and `markUsed`, when there is room; `none` is a copy through
a null pointer. -/
def append (b : ChunkBuffer) (bytes : List UInt8) (h : bytes.length ≤ b.capacity) :
    Option ChunkBuffer :=
  match hu : b.used with
  | none => if bytes = [] then some b else none
  | some u => some {
      size := b.size
      used := some (u ++ bytes)
      used_le := by
        have hle := b.used_le
        rw [capacity, hu] at h
        rw [hu] at hle
        simp only [Option.getD_some, List.length_append] at h hle ⊢
        omega
      size_lt := b.size_lt }

/-- `commit`. -/
def commit (b : ChunkBuffer) : ConstBuffer where
  bytes := b.used.getD []
  size_lt := lt_of_le_of_lt b.used_le b.size_lt

end ChunkBuffer

/-! ### The memory that is received into -/

/-- `RECEIVE_STREAM_SIZE`. -/
def receiveStreamSize : ℕ := 41000

/-- `m_receiveStream` but for the bytes between its pointers: `m_size`, and `capacity`, the bytes
behind the write pointer. -/
structure ReceivePool where
  size : ℕ
  capacity : ℕ
  deriving DecidableEq

namespace ReceivePool

/-- `BufferPool(RECEIVE_STREAM_SIZE)`, and what `clear` leaves: `m_size` is the default size, and
`capacity` counts from the null pointer. -/
def empty : ReceivePool := ⟨receiveStreamSize, receiveStreamSize⟩

/-- `markUsed`.  A receive is given the capacity, so no more bytes than that arrive. -/
def markUsed (p : ReceivePool) (bytecount : ℕ) : ReceivePool :=
  { p with capacity := p.capacity - bytecount }

/-- The sizes of the array that `change_capacity` allocates, for `unprocessed` bytes. -/
def changeCapacity (p : ReceivePool) (unprocessed bytes : ℕ) : ReceivePool :=
  let size := if unprocessed + bytes ≤ receiveStreamSize then receiveStreamSize
    else max (bytes + unprocessed) (Streaming.ceilPhi p.size)
  ⟨size, size - unprocessed⟩

end ReceivePool

/-- A message as the callbacks get it.  `m_bodyStart` may lie behind `m_end`: the message has no
body then, and `overrun` is how far behind it lies. -/
structure Delivery where
  message : Message
  overrun : ℕ

/-- What ends a program. -/
inductive Fault where
  | assertion
  | negativeLength
  | nullPointer
  | endlessLoop
  deriving DecidableEq

/-- What a connection does next: wait for bytes, nothing until it is connected again, nothing
because no receive is pending, or nothing at all. -/
inductive Status where
  | connected
  | closed
  | stalled
  | failed (fault : Fault)
  deriving DecidableEq

/-- The receiving half of `NetworkManagerConnection`.  `receiveStream` are the bytes between the
pointers of `m_receiveStream`, `delivered` the messages that the callbacks were given, and
`pongs` counts the answers queued for a ping. -/
structure Receiver where
  isOutgoing : Bool
  firstPacket : Bool
  receiveStream : List UInt8
  receivePool : ReceivePool
  chunkedMessageBuffer : ChunkBuffer
  chunkedServiceId : Int32
  chunkedMessageId : Int32
  status : Status
  delivered : List Delivery
  pongs : ℕ

namespace Receiver

/-- A connection that has just been made. -/
def create (isOutgoing : Bool) : Receiver where
  isOutgoing := isOutgoing
  firstPacket := true
  receiveStream := []
  receivePool := .empty
  chunkedMessageBuffer := ChunkBuffer.create (256 * 1024) (by decide)
  chunkedServiceId := -1
  chunkedMessageId := -1
  status := .connected
  delivered := []
  pongs := 0

/-- The program ends. -/
def fail (r : Receiver) (fault : Fault) : Receiver := { r with status := .failed fault }

/-- `close`.  An incoming connection is shut down; an outgoing one is emptied, but keeps the
ids of an unfinished sequence. -/
def close (r : Receiver) : Receiver :=
  if r.isOutgoing then
    { r with
      receiveStream := []
      receivePool := .empty
      chunkedMessageBuffer := r.chunkedMessageBuffer.clear
      status := .closed }
  else { r with status := .closed }

/-! ### One packet -/

/-- The end of `processPacket`: give the message its integers and call the callbacks.  The
callbacks are taken to leave the connection open. -/
def deliver (r : Receiver) (d : Delivery) (h : PacketHeader) : Receiver × Bool :=
  match ((d.message.setMessageId h.messageId).setServiceId h.serviceId).setHeaderInts
      h.headerData with
  | none => (r.fail .assertion, false)
  | some message => ({ r with delivered := r.delivered ++ [{ d with message := message }] }, true)

/-- The bytes of the packet behind its length. -/
def packetBytes (data : List UInt8) : ConstBuffer where
  bytes := (data.take (packetLength data)).drop 2
  size_lt := by
    have := packetLength_lt data
    rw [List.length_drop, List.length_take]
    omega

/-- `Message(buffer, data + 2, data + 2 + headerSize, data + packetLength)`.  The constructor does
not compare its pointers. -/
def packetMessage (data : List UInt8) (h : PacketHeader) : Delivery where
  message := Message.ofSlice (packetBytes data) h.headerSize
  overrun := h.headerSize + 2 - packetLength data

/-- A packet that is not part of a sequence. -/
def processSingle (r : Receiver) (data : List UInt8) (h : PacketHeader) : Receiver × Bool :=
  r.deliver (packetMessage data h) h

/-- The checks on a packet that is part of a sequence: it starts one while another is not
finished, or goes on with one that was not started. -/
def Refuses (r : Receiver) (h : PacketHeader) : Prop :=
  if h.sequenceSize ≠ -1 then r.chunkedMessageId ≠ -1 ∨ r.chunkedServiceId ≠ -1
  else r.chunkedMessageId ≠ h.messageId ∨ r.chunkedServiceId ≠ h.serviceId

instance (r : Receiver) (h : PacketHeader) : Decidable (r.Refuses h) :=
  inferInstanceAs (Decidable (if h.sequenceSize ≠ -1
    then r.chunkedMessageId ≠ -1 ∨ r.chunkedServiceId ≠ -1
    else r.chunkedMessageId ≠ h.messageId ∨ r.chunkedServiceId ≠ h.serviceId))

/-- The first packet of a sequence sets up the buffer. -/
def startSequence (r : Receiver) (h : PacketHeader) : Receiver :=
  if h.sequenceSize ≠ -1 then
    { r with
      chunkedMessageId := h.messageId
      chunkedServiceId := h.serviceId
      chunkedMessageBuffer := ChunkBuffer.create h.sequenceSize.toInt.toNat (by
        have := h.sequenceSize.toInt_lt
        omega) }
  else r

/-- The last packet of a sequence: the message is what the buffer holds. -/
def finishSequence (r : Receiver) (h : PacketHeader) : Receiver × Bool :=
  { r with
    chunkedMessageId := -1
    chunkedServiceId := -1
    chunkedMessageBuffer := r.chunkedMessageBuffer.clear }.deliver
      ⟨Message.ofPayload r.chunkedMessageBuffer.commit r.chunkedServiceId (-1), 0⟩ h

/-- The body of a packet that is part of a sequence goes to the end of the buffer.  When there
is no room for it, the function returns without closing the connection. -/
def appendChunk (r : Receiver) (data : List UInt8) (h : PacketHeader) (last : Bool) :
    Receiver × Bool :=
  if packetLength data < h.headerSize + 2 then (r.fail .negativeLength, false)
  else if hroom : (packetBody data h).length ≤ r.chunkedMessageBuffer.capacity then
    match r.chunkedMessageBuffer.append (packetBody data h) hroom with
    | none => (r.fail .nullPointer, false)
    | some buffer =>
        if last then { r with chunkedMessageBuffer := buffer }.finishSequence h
        else ({ r with chunkedMessageBuffer := buffer }, true)
  else ({ r with status := .stalled }, false)

/-- A packet that is part of a sequence.  `BufferPool` cannot be made with a negative size. -/
def processChunk (r : Receiver) (data : List UInt8) (h : PacketHeader) (last : Bool) :
    Receiver × Bool :=
  if r.Refuses h then (r.close, false)
  else if h.sequenceSize ≠ -1 ∧ ¬ 0 ≤ h.sequenceSize then (r.fail .negativeLength, false)
  else (r.startSequence h).appendChunk data h last

/-- `processPacket` behind the header. -/
def processHeader (r : Receiver) (data : List UInt8) (h : PacketHeader) : Receiver × Bool :=
  if h.serviceId = -1 then (r.close, false)
  else if h.serviceId = systemServiceId then
    ({ r with pongs := if h.isPing then r.pongs + 1 else r.pongs }, true)
  else
    match h.lastInSequence with
    | none => r.processSingle data h
    | some last => r.processChunk data h last

/-- `processPacket`, on the memory that begins with the packet.  The result is what the source
returns: whether to go on with the next packet. -/
def processPacket (r : Receiver) (data : List UInt8) : Receiver × Bool :=
  match readHeader data with
  | .endless => (r.fail .endlessLoop, false)
  | .malformed => (r.close, false)
  | .complete h => r.processHeader data h

/-! ### The receive loop -/

/-- What a round of the loop in `receivedSomeBytes` ends with. -/
inductive RoundEnd where
  | again
  | needMore
  | stop
  deriving DecidableEq

/-- The second half of a round, behind the check of the first packet. -/
def receivePacket (r : Receiver) (behind : UInt8 × UInt8) : Receiver × RoundEnd :=
  if packetLength r.receiveStream > maxMessageSize then (r.close, .stop)
  else if r.receiveStream.length < packetLength r.receiveStream then (r, .needMore)
  else
    match r.processPacket (r.receiveStream ++ [behind.1, behind.2]) with
    | (r', false) => (r', .stop)
    | (r', true) =>
        ({ r' with receiveStream := r'.receiveStream.drop (packetLength r.receiveStream) }, .again)

/-- A round of the loop, with the two bytes of memory behind the receive buffer. -/
def round (r : Receiver) (behind : UInt8 × UInt8) : Receiver × RoundEnd :=
  if r.receiveStream.length < 4 then (r, .needMore)
  else if r.firstPacket ∧ r.receiveStream.getD 2 0 ≠ 8 then
    ({ r with firstPacket := false }.close, .stop)
  else { r with firstPacket := false }.receivePacket behind

/-- The loop.  The bytes that are there bound its rounds, as a packet that is processed takes at
least one. -/
def receiveLoop (behind : UInt8 × UInt8) : ℕ → Receiver → Receiver
  | 0, r => r
  | rounds + 1, r =>
      match r.round behind with
      | (r, .again) => receiveLoop behind rounds r
      | (r, _) => r

/-- `m_receiveStream.markUsed`: bytes that have arrived. -/
def markUsed (r : Receiver) (bytes : List UInt8) : Receiver :=
  { r with
    receiveStream := r.receiveStream ++ bytes
    receivePool := r.receivePool.markUsed bytes.length }

/-- `m_receiveStream.reserve(MAX_MESSAGE_SIZE)`.  A pool that was cleared gets memory, of which it
reports the capacity already.  With too little capacity the pool moves to a new array; the bytes
that are not processed are copied from the old one, which has been let go of: `freed` is what is
found there, the bytes themselves when a callback still holds a message in the array. -/
def reserve (r : Receiver) (freed : ℕ → UInt8) : Receiver :=
  if r.receivePool.capacity < maxMessageSize then
    { r with
      receiveStream := (List.range r.receiveStream.length).map freed
      receivePool := r.receivePool.changeCapacity r.receiveStream.length maxMessageSize }
  else r

/-- The bytes that a connection reads and did not receive: the two behind the receive buffer, and
those in an array that was freed. -/
structure Memory where
  behind : UInt8 × UInt8
  freed : ℕ → UInt8

/-- Memory that was set to zero. -/
def Memory.zeros : Memory := ⟨(0, 0), fun _ => 0⟩

/-- `receivedSomeBytes` without error.  The loop is left for the next receive when all packets are
out; where the function returns from inside the loop, the connection is no longer connected. -/
def receivedSomeBytes (r : Receiver) (bytes : List UInt8) (memory : Memory) : Receiver :=
  let r := receiveLoop memory.behind (r.receiveStream ++ bytes).length (r.markUsed bytes)
  if r.status = .connected then r.reserve memory.freed else r

/-! ### The life of a connection -/

/-- What happens to a connection: bytes that the peer sent, an error while receiving, a close
from this side (`disconnect`, `pingTimeout`), and `onConnectComplete`. -/
inductive Event where
  | bytes (bytes : List UInt8) (memory : Memory)
  | receiveError
  | close
  | connectComplete (freed : ℕ → UInt8)

/-- One event.  A connection that is not connected gets no bytes, a closed incoming one is gone,
and nothing happens behind a fault. -/
def step (r : Receiver) (e : Event) : Receiver :=
  match r.status with
  | .failed _ => r
  | .connected =>
      match e with
      | .bytes bytes memory => r.receivedSomeBytes bytes memory
      | .receiveError => { r.close with firstPacket := true }
      | .close => r.close
      | .connectComplete _ => r
  | .stalled =>
      match e with
      | .close => r.close
      | .connectComplete freed => { r.reserve freed with status := .connected }
      | _ => r
  | .closed =>
      match e with
      | .connectComplete freed =>
          if r.isOutgoing then { r.reserve freed with status := .connected } else r
      | _ => r

/-! ## Assertions and negative lengths -/

/-- No assertion has failed and no length was negative, that of the body of a message included. -/
def NoAssertion (r : Receiver) : Prop :=
  r.status ≠ .failed .assertion ∧ r.status ≠ .failed .negativeLength ∧
    ∀ d ∈ r.delivered, d.overrun = 0

instance (r : Receiver) : Decidable r.NoAssertion :=
  inferInstanceAs (Decidable (r.status ≠ .failed .assertion ∧
    r.status ≠ .failed .negativeLength ∧ ∀ d ∈ r.delivered, d.overrun = 0))

/-- The header ends inside the packet. -/
def EndsInside (data : List UInt8) (h : PacketHeader) : Prop :=
  h.headerSize + 2 ≤ packetLength data

instance (data : List UInt8) (h : PacketHeader) : Decidable (EndsInside data h) :=
  inferInstanceAs (Decidable (h.headerSize + 2 ≤ packetLength data))

/-- The fields that the parser finds in front of `HeaderEnd`. -/
def headerFields : ℕ → MessageParser → List MessageParser
  | 0, _ => []
  | rounds + 1, p =>
      match p.nextOver with
      | (.foundTag, p) => if p.tag = Network.headerEnd then [] else p :: headerFields rounds p
      | _ => []

/-- An integer with one of the tags from `Pong` to `10`, which are reserved and for which the
`switch` has no case. -/
def ReservedField (f : MessageParser) : Prop := f.isInt ∧ Network.pong ≤ f.tag ∧ f.tag ≤ 10

instance (f : MessageParser) : Decidable (ReservedField f) :=
  inferInstanceAs (Decidable (f.isInt ∧ Network.pong ≤ f.tag ∧ f.tag ≤ 10))

/-- The packet at `data` has no such field in its header. -/
def NoReservedField (data : List UInt8) : Prop :=
  ∀ f ∈ headerFields (packetLength data + 1) (MessageParser.create (headerSlice data)),
    ¬ ReservedField f

instance (data : List UInt8) : Decidable (NoReservedField data) :=
  inferInstanceAs (Decidable (∀ f ∈ headerFields (packetLength data + 1)
    (MessageParser.create (headerSlice data)), ¬ ReservedField f))

/-- The buffer takes `bytes`: it has room for them, and memory. -/
def Takes (b : ChunkBuffer) (bytes : List UInt8) : Prop :=
  bytes.length ≤ b.capacity ∧ (b.used = none → bytes = [])

instance (b : ChunkBuffer) (bytes : List UInt8) : Decidable (Takes b bytes) :=
  inferInstanceAs (Decidable (bytes.length ≤ b.capacity ∧ (b.used = none → bytes = [])))

/-- What the header of a packet has to satisfy, when the packet is for the callbacks.  A packet
that is part of a sequence and not refused announces no negative size, and only the packet that
ends the sequence has its integers looked at. -/
def SoundHeader (r : Receiver) (data : List UInt8) (h : PacketHeader) : Prop :=
  match h.lastInSequence with
  | none => EndsInside data h ∧ NoReservedField data
  | some last => ¬ r.Refuses h →
      (h.sequenceSize ≠ -1 → 0 ≤ h.sequenceSize) ∧ EndsInside data h ∧
        (last = true → Takes (r.startSequence h).chunkedMessageBuffer (packetBody data h) →
          NoReservedField data)

instance (r : Receiver) (data : List UInt8) (h : PacketHeader) :
    Decidable (r.SoundHeader data h) :=
  match hl : h.lastInSequence with
  | none => decidable_of_iff (EndsInside data h ∧ NoReservedField data)
      (by rw [SoundHeader, hl])
  | some last => decidable_of_iff (¬ r.Refuses h →
      (h.sequenceSize ≠ -1 → 0 ≤ h.sequenceSize) ∧ EndsInside data h ∧
        (last = true → Takes (r.startSequence h).chunkedMessageBuffer (packetBody data h) →
          NoReservedField data)) (by rw [SoundHeader, hl])

/-- What a packet has to satisfy. -/
def Sound (r : Receiver) (data : List UInt8) : Prop :=
  match readHeader data with
  | .complete h => h.serviceId ≠ -1 → h.serviceId ≠ systemServiceId → r.SoundHeader data h
  | _ => True

instance (r : Receiver) (data : List UInt8) : Decidable (r.Sound data) :=
  match hread : readHeader data with
  | .complete h => decidable_of_iff
      (h.serviceId ≠ -1 → h.serviceId ≠ systemServiceId → r.SoundHeader data h)
      (by rw [Sound, hread])
  | .malformed => .isTrue (by rw [Sound, hread]; trivial)
  | .endless => .isTrue (by rw [Sound, hread]; trivial)

theorem noAssertion_close {r : Receiver} (hr : r.NoAssertion) : r.close.NoAssertion := by
  unfold close
  split <;> exact ⟨by simp, by simp, hr.2.2⟩

theorem noAssertion_reserve_iff {r : Receiver} {freed : ℕ → UInt8} :
    (r.reserve freed).NoAssertion ↔ r.NoAssertion := by
  unfold reserve
  split <;> rfl

theorem not_noAssertion_fail {r : Receiver} {fault : Fault}
    (h : fault = .assertion ∨ fault = .negativeLength) : ¬ (r.fail fault).NoAssertion := by
  rcases h with rfl | rfl <;> simp [NoAssertion, fail]

/-- The names of the integers of a header are those that `setHeaderInt` takes. -/
def NamesAllowed (h : PacketHeader) : Prop := ∀ e ∈ h.headerData.toList, e.1 > 10

theorem namesAllowed_iff {h : PacketHeader} : NamesAllowed h ↔ ∀ n ∈ h.headerData, n > 10 := by
  constructor
  · intro hall n hn
    rw [Std.TreeMap.mem_iff_isSome_getElem?, Option.isSome_iff_exists] at hn
    obtain ⟨v, hv⟩ := hn
    exact hall (n, v) (Std.TreeMap.mem_toList_iff_getElem?_eq_some.mpr hv)
  · intro hall e he
    refine hall e.1 ?_
    have hget := Std.TreeMap.mem_toList_iff_getElem?_eq_some.mp (show (e.1, e.2) ∈ _ from he)
    rw [Std.TreeMap.mem_iff_isSome_getElem?, hget]
    rfl

/-- A tag that is kept as a name, as an `int`. -/
theorem toInt_toInt32_tag {tag : UInt32} (h : tag < 0xFFFFFF) : tag.toInt32.toInt = tag.toNat := by
  have hlt : tag.toNat < 16777215 := UInt32.lt_iff_toNat_lt.mp h
  show tag.toBitVec.toInt = _
  rw [BitVec.toInt_eq_toNat_of_lt]
  · rfl
  · show 2 * tag.toNat < 2 ^ 32
    omega

/-- A field adds a name that is not allowed exactly when it is reserved. -/
theorem addField_names {h h' : PacketHeader} {p : MessageParser} (hp : p.tag ≠ Network.headerEnd)
    (hadd : h.addField p = some h') :
    NamesAllowed h' ↔ NamesAllowed h ∧ ¬ ReservedField p := by
  have hsame : ∀ {g : PacketHeader}, some g = some h' → g.headerData = h.headerData →
      ¬ ReservedField p → (NamesAllowed h' ↔ NamesAllowed h ∧ ¬ ReservedField p) := by
    intro g heq hg hres
    obtain rfl := Option.some.inj heq
    rw [NamesAllowed, hg]
    exact ⟨fun hn => ⟨hn, hres⟩, fun hn => hn.1⟩
  have hlow : ∀ {tag : UInt32}, tag.toNat < 6 → p.tag = tag → ¬ ReservedField p := by
    intro tag hlt heq hres
    have hle := UInt32.le_iff_toNat_le.mp hres.2.1
    change 6 ≤ p.tag.toNat at hle
    rw [heq] at hle
    omega
  unfold PacketHeader.addField at hadd
  split_ifs at hadd with h2 hint h1 hint h4 hbool h3 hint h5 hextra
  · exact hsame hadd rfl (hlow (by decide) h2)
  · exact hsame hadd rfl (hlow (by decide) h1)
  · exact hsame hadd rfl (hlow (by decide) h4)
  · exact hsame hadd rfl (hlow (by decide) h3)
  · exact hsame hadd rfl (hlow (by decide) h5)
  · -- the integer is kept under its tag
    obtain rfl := Option.some.inj hadd
    have hname : p.tag.toInt32 > 10 ↔ ¬ ReservedField p := by
      have hne : p.tag.toNat ≠ 0 ∧ p.tag.toNat ≠ 1 ∧ p.tag.toNat ≠ 2 ∧ p.tag.toNat ≠ 3 ∧
          p.tag.toNat ≠ 4 ∧ p.tag.toNat ≠ 5 :=
        ⟨fun h => hp (UInt32.toNat_inj.mp h), fun h => h1 (UInt32.toNat_inj.mp h),
          fun h => h2 (UInt32.toNat_inj.mp h), fun h => h3 (UInt32.toNat_inj.mp h),
          fun h => h4 (UInt32.toNat_inj.mp h), fun h => h5 (UInt32.toNat_inj.mp h)⟩
      rw [gt_iff_lt, Int32.lt_iff_toInt_lt, toInt_toInt32_tag hextra.2, ReservedField,
        UInt32.le_iff_toNat_le, UInt32.le_iff_toNat_le]
      show (10 : ℤ) < p.tag.toNat ↔ ¬ (p.isInt = true ∧ 6 ≤ p.tag.toNat ∧ p.tag.toNat ≤ 10)
      constructor
      · rintro hlt ⟨-, -, hle⟩
        omega
      · intro hno
        by_contra hlt
        exact hno ⟨hextra.1, by omega, by omega⟩
    rw [← hname, namesAllowed_iff, namesAllowed_iff]
    simp only [Std.TreeMap.mem_insertIfNew, Std.LawfulEqCmp.compare_eq_iff_eq]
    constructor
    · intro hall
      exact ⟨fun n hn => hall n (.inr hn), hall _ (.inl rfl)⟩
    · rintro ⟨hall, hnew⟩ n (rfl | hn)
      · exact hnew
      · exact hall n hn
  · refine hsame hadd rfl ?_
    rintro ⟨hint, -, hle⟩
    have hle' : p.tag.toNat ≤ 10 := UInt32.le_iff_toNat_le.mp hle
    refine hextra ⟨hint, UInt32.lt_iff_toNat_lt.mpr ?_⟩
    show p.tag.toNat < 16777215
    omega

/-- Delivering a message is all right exactly when its body does not start behind its end, and the
names of its integers are allowed. -/
theorem deliver_noAssertion_iff {r : Receiver} {d : Delivery} {h : PacketHeader}
    (hr : r.NoAssertion) : (r.deliver d h).1.NoAssertion ↔ d.overrun = 0 ∧ NamesAllowed h := by
  unfold deliver
  split
  · rename_i hnone
    obtain ⟨e, he, hname⟩ := Message.setHeaderInts_eq_none_iff.mp hnone
    refine ⟨fun hno => absurd hno (not_noAssertion_fail (.inl rfl)), fun hall => ?_⟩
    exact absurd (hall.2 e he) hname
  · rename_i message' hsome
    have hnames : NamesAllowed h := by
      intro e he
      by_contra hname
      rw [Message.setHeaderInts_eq_none_iff.mpr ⟨e, he, hname⟩] at hsome
      cases hsome
    refine ⟨fun hno => ⟨?_, hnames⟩, fun hall => ⟨hr.1, hr.2.1, fun x hx => ?_⟩⟩
    · exact hno.2.2 { d with message := message' }
        (List.mem_append_right _ (List.mem_singleton_self _))
    · rcases List.mem_append.mp hx with hx | hx
      · exact hr.2.2 x hx
      · rw [List.mem_singleton.mp hx]
        exact hall.1

theorem finishSequence_noAssertion_iff {r : Receiver} {h : PacketHeader} (hr : r.NoAssertion) :
    (r.finishSequence h).1.NoAssertion ↔ NamesAllowed h := by
  unfold finishSequence
  rw [deliver_noAssertion_iff (show NoAssertion { r with
    chunkedMessageId := -1
    chunkedServiceId := -1
    chunkedMessageBuffer := r.chunkedMessageBuffer.clear } from hr)]
  exact and_iff_right rfl

/-- Copying to the buffer. -/
theorem append_eq_none_iff {b : ChunkBuffer} {bytes : List UInt8} (h : bytes.length ≤ b.capacity) :
    b.append bytes h = none ↔ ¬ Takes b bytes := by
  unfold ChunkBuffer.append Takes
  split
  · rename_i hu
    by_cases hb : bytes = []
    · rw [if_pos hb]
      simp [hb]
    · rw [if_neg hb]
      simp [hu, hb]
  · rename_i u hu
    simp [hu, h]

/-- A chunk that goes into the buffer. -/
theorem appendChunk_noAssertion_iff {r : Receiver} {data : List UInt8} {h : PacketHeader}
    {last : Bool} (hr : r.NoAssertion) :
    (r.appendChunk data h last).1.NoAssertion ↔ EndsInside data h ∧
      (last = true → Takes r.chunkedMessageBuffer (packetBody data h) → NamesAllowed h) := by
  unfold appendChunk EndsInside
  by_cases hinside : packetLength data < h.headerSize + 2
  · rw [if_pos hinside]
    refine ⟨fun hno => absurd hno (not_noAssertion_fail (.inr rfl)), fun hall => ?_⟩
    omega
  · rw [if_neg hinside]
    have hle : h.headerSize + 2 ≤ packetLength data := by omega
    by_cases hroom : (packetBody data h).length ≤ r.chunkedMessageBuffer.capacity
    · rw [dif_pos hroom]
      cases happ : r.chunkedMessageBuffer.append (packetBody data h) hroom with
      | none =>
        have hnot := (append_eq_none_iff hroom).mp happ
        exact ⟨fun _ => ⟨hle, fun _ htakes => absurd htakes hnot⟩,
          fun _ => ⟨by simp [fail], by simp [fail], hr.2.2⟩⟩
      | some buffer =>
        have htakes : Takes r.chunkedMessageBuffer (packetBody data h) := by
          by_contra hnot
          rw [(append_eq_none_iff hroom).mpr hnot] at happ
          cases happ
        cases last with
        | false => exact ⟨fun _ => ⟨hle, by simp⟩, fun _ => hr⟩
        | true =>
          have hfinish := finishSequence_noAssertion_iff (h := h)
            (r := { r with chunkedMessageBuffer := buffer }) hr
          simp only [if_true]
          rw [hfinish]
          exact ⟨fun hnames => ⟨hle, fun _ _ => hnames⟩, fun hall => hall.2 trivial htakes⟩
    · rw [dif_neg hroom]
      exact ⟨fun _ => ⟨hle, fun _ htakes => absurd htakes.1 hroom⟩,
        fun _ => ⟨by simp, by simp, hr.2.2⟩⟩

theorem noAssertion_startSequence {r : Receiver} {h : PacketHeader} (hr : r.NoAssertion) :
    (r.startSequence h).NoAssertion := by
  unfold startSequence
  split <;> exact hr

/-- A packet that is not part of a sequence. -/
theorem processSingle_noAssertion_iff {r : Receiver} {data : List UInt8} {h : PacketHeader}
    (hr : r.NoAssertion) :
    (r.processSingle data h).1.NoAssertion ↔ EndsInside data h ∧ NamesAllowed h := by
  unfold processSingle
  rw [deliver_noAssertion_iff hr, EndsInside, packetMessage, Nat.sub_eq_zero_iff_le]

/-- A packet that is part of a sequence. -/
theorem processChunk_noAssertion_iff {r : Receiver} {data : List UInt8} {h : PacketHeader}
    {last : Bool} (hr : r.NoAssertion) :
    (r.processChunk data h last).1.NoAssertion ↔ (¬ r.Refuses h →
      (h.sequenceSize ≠ -1 → 0 ≤ h.sequenceSize) ∧ EndsInside data h ∧
        (last = true → Takes (r.startSequence h).chunkedMessageBuffer (packetBody data h) →
          NamesAllowed h)) := by
  unfold processChunk
  by_cases hrefuse : r.Refuses h
  · rw [if_pos hrefuse]
    exact ⟨fun _ hno => absurd hrefuse hno, fun _ => noAssertion_close hr⟩
  · rw [if_neg hrefuse]
    simp only [hrefuse, not_false_iff, true_implies]
    by_cases hsize : h.sequenceSize ≠ -1 ∧ ¬ 0 ≤ h.sequenceSize
    · rw [if_pos hsize]
      refine ⟨fun hno => absurd hno (not_noAssertion_fail (.inr rfl)), fun hall => ?_⟩
      exact absurd (hall.1 hsize.1) hsize.2
    · rw [if_neg hsize, appendChunk_noAssertion_iff (noAssertion_startSequence hr)]
      refine ⟨fun hall => ⟨fun hne => ?_, hall⟩, fun hall => hall.2⟩
      by_contra hneg
      exact hsize ⟨hne, hneg⟩

/-- The names of the whole header. -/
theorem headerLoop_names : ∀ {rounds : ℕ} {p : MessageParser} {h h' : PacketHeader},
    headerLoop rounds p h = .complete h' →
    (NamesAllowed h' ↔ NamesAllowed h ∧ ∀ f ∈ headerFields rounds p, ¬ ReservedField f) := by
  intro rounds
  induction rounds with
  | zero =>
    intro p h h' hloop
    cases hloop
  | succ rounds ih =>
    intro p h h' hloop
    rw [headerLoop] at hloop
    rw [headerFields]
    split at hloop
    · rename_i q hnext
      by_cases htag : q.tag = Network.headerEnd
      · rw [if_pos htag] at hloop ⊢
        cases hloop
        exact ⟨fun hn => ⟨hn, by simp⟩, fun hn => hn.1⟩
      · rw [if_neg htag] at hloop ⊢
        split at hloop
        · cases hloop
        · rename_i mid hadd
          rw [ih hloop, addField_names htag hadd, List.forall_mem_cons, and_assoc]
    · cases hloop

theorem readHeader_names {data : List UInt8} {h : PacketHeader} (hread : readHeader data = .complete h) :
    NamesAllowed h ↔ NoReservedField data := by
  rw [headerLoop_names hread]
  refine and_iff_right ?_
  rw [namesAllowed_iff]
  intro n hn
  exact absurd hn Std.TreeMap.not_mem_emptyc

/-- **One packet.**  `processPacket` gets through without a failed assertion or a negative
length if and only if the packet is sound. -/
theorem processPacket_noAssertion_iff {r : Receiver} {data : List UInt8} (hr : r.NoAssertion) :
    (r.processPacket data).1.NoAssertion ↔ r.Sound data := by
  unfold processPacket Sound
  cases hread : readHeader data with
  | endless => exact iff_of_true ⟨by simp [fail], by simp [fail], hr.2.2⟩ trivial
  | malformed => exact iff_of_true (noAssertion_close hr) trivial
  | complete h =>
    show (r.processHeader data h).1.NoAssertion ↔ _
    unfold processHeader
    by_cases hnone : h.serviceId = -1
    · rw [if_pos hnone]
      exact ⟨fun _ hid => absurd hnone hid, fun _ => noAssertion_close hr⟩
    rw [if_neg hnone]
    by_cases hsystem : h.serviceId = systemServiceId
    · rw [if_pos hsystem]
      exact ⟨fun _ _ hid => absurd hsystem hid, fun _ => hr⟩
    rw [if_neg hsystem]
    simp only [ne_eq, hnone, hsystem, not_false_iff, true_implies]
    unfold SoundHeader
    rw [← readHeader_names hread]
    cases h.lastInSequence with
    | none => exact processSingle_noAssertion_iff hr
    | some last => exact processChunk_noAssertion_iff hr

/-! ### Every run -/

/-- A round finds a packet that it processes. -/
def HasPacket (r : Receiver) : Prop :=
  4 ≤ r.receiveStream.length ∧ (r.firstPacket → r.receiveStream.getD 2 0 = 8) ∧
    packetLength r.receiveStream ≤ maxMessageSize ∧
    packetLength r.receiveStream ≤ r.receiveStream.length

instance (r : Receiver) : Decidable r.HasPacket :=
  inferInstanceAs (Decidable (4 ≤ r.receiveStream.length ∧
    (r.firstPacket → r.receiveStream.getD 2 0 = 8) ∧
    packetLength r.receiveStream ≤ maxMessageSize ∧
    packetLength r.receiveStream ≤ r.receiveStream.length))

/-- Every packet that the loop processes meets `C`, in the state in which it is processed and
with the memory that begins with it. -/
def EachPacket (C : Receiver → List UInt8 → Prop) (behind : UInt8 × UInt8) : ℕ → Receiver → Prop
  | 0, _ => True
  | rounds + 1, r =>
      (r.HasPacket →
        C { r with firstPacket := false } (r.receiveStream ++ [behind.1, behind.2])) ∧
        match r.round behind with
        | (r, .again) => EachPacket C behind rounds r
        | _ => True

/-- Every packet that an event makes the connection process is sound. -/
def SoundEvent (r : Receiver) (e : Event) : Prop :=
  match e with
  | .bytes bytes memory => r.status = .connected →
      EachPacket Sound memory.behind (r.receiveStream ++ bytes).length (r.markUsed bytes)
  | _ => True

theorem packetLength_append {data : List UInt8} (h : 2 ≤ data.length) (more : List UInt8) :
    packetLength (data ++ more) = packetLength data := by
  rw [packetLength, packetLength, List.getD_append _ _ _ _ (by omega),
    List.getD_append _ _ _ _ (by omega)]

/-- What a round does, by what it finds: nothing changes but the mark of the first packet, the
connection is closed, or a packet is processed. -/
theorem round_cases (r : Receiver) (behind : UInt8 × UInt8) :
    (¬ r.HasPacket ∧ ((∃ b, r.round behind = ({ r with firstPacket := b }, .needMore)) ∨
      ∃ b, r.round behind = ({ r with firstPacket := b }.close, .stop))) ∨
    (r.HasPacket ∧ ∃ r',
      { r with firstPacket := false }.processPacket (r.receiveStream ++ [behind.1, behind.2])
        = (r', false) ∧ r.round behind = (r', .stop)) ∨
    (r.HasPacket ∧ ∃ r',
      { r with firstPacket := false }.processPacket (r.receiveStream ++ [behind.1, behind.2])
        = (r', true) ∧
      r.round behind = ({ r' with
        receiveStream := r'.receiveStream.drop (packetLength r.receiveStream) }, .again)) := by
  unfold round receivePacket HasPacket
  by_cases h4 : r.receiveStream.length < 4
  · rw [if_pos h4]
    exact .inl ⟨by omega, .inl ⟨r.firstPacket, rfl⟩⟩
  rw [if_neg h4]
  by_cases hfirst : r.firstPacket ∧ r.receiveStream.getD 2 0 ≠ 8
  · rw [if_pos hfirst]
    exact .inl ⟨fun h => hfirst.2 (h.2.1 hfirst.1), .inr ⟨false, rfl⟩⟩
  rw [if_neg hfirst]
  simp only
  by_cases hmax : packetLength r.receiveStream > maxMessageSize
  · rw [if_pos hmax]
    exact .inl ⟨fun h => absurd h.2.2.1 (not_le.mpr hmax), .inr ⟨false, rfl⟩⟩
  rw [if_neg hmax]
  by_cases hlen : r.receiveStream.length < packetLength r.receiveStream
  · rw [if_pos hlen]
    exact .inl ⟨fun h => absurd h.2.2.2 (not_le.mpr hlen), .inl ⟨false, rfl⟩⟩
  rw [if_neg hlen]
  have hhas : 4 ≤ r.receiveStream.length ∧ (r.firstPacket = true → r.receiveStream.getD 2 0 = 8) ∧
      packetLength r.receiveStream ≤ maxMessageSize ∧
      packetLength r.receiveStream ≤ r.receiveStream.length := by
    refine ⟨by omega, fun hf => ?_, not_lt.mp hmax, not_lt.mp hlen⟩
    by_contra hbyte
    exact hfirst ⟨hf, hbyte⟩
  rcases hproc : { r with firstPacket := false }.processPacket
    (r.receiveStream ++ [behind.1, behind.2]) with ⟨r', ok⟩
  cases ok with
  | false => exact .inr (.inl ⟨hhas, r', hproc, by rw [hproc]⟩)
  | true => exact .inr (.inr ⟨hhas, r', hproc, by rw [hproc]⟩)

/-- What a packet leaves alone when the loop goes on behind it. -/
def SameLink (r r' : Receiver) : Prop :=
  r'.status = r.status ∧ r'.receiveStream = r.receiveStream

/-- A packet behind which the loop goes on leaves status and receive buffer alone; one behind
which the function returns has ended the connection in some way. -/
def LinkKept (r : Receiver) (res : Receiver × Bool) : Prop :=
  if res.2 then SameLink r res.1 else res.1.status ≠ .connected

theorem linkKept_fail (r : Receiver) (fault : Fault) : LinkKept r (r.fail fault, false) := by
  simp [LinkKept, fail]

theorem linkKept_close (r : Receiver) : LinkKept r (r.close, false) := by
  unfold LinkKept close
  split <;> simp

theorem linkKept_deliver (r : Receiver) (d : Delivery) (h : PacketHeader) :
    LinkKept r (r.deliver d h) := by
  unfold deliver
  split
  · exact linkKept_fail r _
  · exact ⟨rfl, rfl⟩

theorem linkKept_appendChunk (r : Receiver) (data : List UInt8) (h : PacketHeader) (last : Bool) :
    LinkKept r (r.appendChunk data h last) := by
  unfold appendChunk
  split
  · exact linkKept_fail r _
  · split
    · split
      · exact linkKept_fail r _
      · split
        · exact linkKept_deliver _ _ h
        · exact ⟨rfl, rfl⟩
    · simp [LinkKept]

theorem linkKept_processChunk (r : Receiver) (data : List UInt8) (h : PacketHeader)
    (last : Bool) : LinkKept r (r.processChunk data h last) := by
  unfold processChunk
  split
  · exact linkKept_close r
  · split
    · exact linkKept_fail r _
    · unfold startSequence
      split
      · exact linkKept_appendChunk _ data h last
      · exact linkKept_appendChunk r data h last

theorem linkKept_processPacket (r : Receiver) (data : List UInt8) :
    LinkKept r (r.processPacket data) := by
  unfold processPacket
  split
  · exact linkKept_fail r _
  · exact linkKept_close r
  · rename_i h _
    unfold processHeader
    split
    · exact linkKept_close r
    · split
      · exact ⟨rfl, rfl⟩
      · split
        · exact linkKept_deliver r _ h
        · exact linkKept_processChunk r data h _

theorem sameLink_of_processPacket {r r' : Receiver} {data : List UInt8}
    (hr : r.processPacket data = (r', true)) : SameLink r r' := by
  have h := r.linkKept_processPacket data
  rwa [hr] at h

theorem status_ne_of_processPacket {r r' : Receiver} {data : List UInt8}
    (hr : r.processPacket data = (r', false)) : r'.status ≠ .connected := by
  have h := r.linkKept_processPacket data
  rwa [hr] at h

/-! What was delivered stays delivered. -/

theorem delivered_close (r : Receiver) : r.close.delivered = r.delivered := by
  unfold close
  split <;> rfl

theorem prefix_deliver (r : Receiver) (d : Delivery) (h : PacketHeader) :
    r.delivered <+: (r.deliver d h).1.delivered := by
  unfold deliver
  split
  · exact List.prefix_refl _
  · exact List.prefix_append _ _

theorem prefix_appendChunk (r : Receiver) (data : List UInt8) (h : PacketHeader) (last : Bool) :
    r.delivered <+: (r.appendChunk data h last).1.delivered := by
  unfold appendChunk
  split
  · exact List.prefix_refl _
  · split
    · split
      · exact List.prefix_refl _
      · rename_i buffer _
        split
        · exact prefix_deliver { r with
            chunkedMessageId := -1
            chunkedServiceId := -1
            chunkedMessageBuffer := buffer.clear } _ h
        · exact List.prefix_refl _
    · exact List.prefix_refl _

theorem prefix_processPacket (r : Receiver) (data : List UInt8) :
    r.delivered <+: (r.processPacket data).1.delivered := by
  unfold processPacket
  split
  · exact List.prefix_refl _
  · rw [delivered_close]
  · rename_i h _
    unfold processHeader
    split
    · rw [delivered_close]
    split
    · exact List.prefix_refl _
    split
    · exact prefix_deliver r _ h
    · unfold processChunk
      split
      · rw [delivered_close]
      split
      · exact List.prefix_refl _
      · have hstart : (r.startSequence h).delivered = r.delivered := by
          unfold startSequence
          split <;> rfl
        rw [← hstart]
        exact prefix_appendChunk _ data h _

theorem prefix_round (r : Receiver) (behind : UInt8 × UInt8) :
    r.delivered <+: (r.round behind).1.delivered := by
  have hpacket := prefix_processPacket { r with firstPacket := false }
    (r.receiveStream ++ [behind.1, behind.2])
  rcases r.round_cases behind with ⟨-, ⟨b, hround⟩ | ⟨b, hround⟩⟩ | ⟨-, r', hproc, hround⟩ |
    ⟨-, r', hproc, hround⟩
  · rw [hround]
  · rw [hround, delivered_close]
  all_goals
    rw [hproc] at hpacket
    rw [hround]
    exact hpacket

theorem prefix_receiveLoop (behind : UInt8 × UInt8) : ∀ (rounds : ℕ) (r : Receiver),
    r.delivered <+: (receiveLoop behind rounds r).delivered := by
  intro rounds
  induction rounds with
  | zero =>
    intro r
    exact List.prefix_refl _
  | succ rounds ih =>
    intro r
    have hround := r.prefix_round behind
    rw [receiveLoop]
    split
    · rename_i r' heq
      rw [heq] at hround
      exact hround.trans (ih r')
    · rename_i r' e _ heq
      rwa [heq] at hround

/-- The loop gets through without a failed assertion or a negative length if and only if all
packets it processes are sound. -/
theorem receiveLoop_noAssertion_iff (behind : UInt8 × UInt8) : ∀ (rounds : ℕ) (r : Receiver),
    r.NoAssertion →
    ((receiveLoop behind rounds r).NoAssertion ↔ EachPacket Sound behind rounds r) := by
  intro rounds
  induction rounds with
  | zero =>
    intro r hr
    exact ⟨fun _ => trivial, fun _ => hr⟩
  | succ rounds ih =>
    intro r hr
    rw [receiveLoop, EachPacket]
    rcases r.round_cases behind with ⟨hno, ⟨b, hround⟩ | ⟨b, hround⟩⟩ | ⟨hhas, r', hproc, hround⟩ |
      ⟨hhas, r', hproc, hround⟩
    · rw [hround]
      exact ⟨fun _ => ⟨fun h => absurd h hno, trivial⟩, fun _ => hr⟩
    · rw [hround]
      exact ⟨fun _ => ⟨fun h => absurd h hno, trivial⟩,
        fun _ => noAssertion_close (show NoAssertion { r with firstPacket := b } from hr)⟩
    all_goals
      have hpacket := @processPacket_noAssertion_iff { r with firstPacket := false }
        (r.receiveStream ++ [behind.1, behind.2]) hr
      rw [hproc] at hpacket
      rw [hround]
    · exact ⟨fun h => ⟨fun _ => hpacket.mp h, trivial⟩, fun h => hpacket.mpr (h.1 hhas)⟩
    · have hrest := ih { r' with
        receiveStream := r'.receiveStream.drop (packetLength r.receiveStream) }
      refine ⟨fun h => ?_, fun h => (hrest (hpacket.mpr (h.1 hhas))).mpr h.2⟩
      -- a body that starts behind its end is still among the messages delivered
      have hr' : r'.NoAssertion := by
        rw [NoAssertion, (sameLink_of_processPacket hproc).1]
        exact ⟨hr.1, hr.2.1, fun d hd => h.2.2 d ((prefix_receiveLoop behind _ _).subset hd)⟩
      exact ⟨fun _ => hpacket.mp hr', (hrest hr').mp h⟩

theorem noAssertion_connected {r : Receiver} (hr : r.NoAssertion) (freed : ℕ → UInt8) :
    NoAssertion { r.reserve freed with status := .connected } :=
  ⟨by simp, by simp, (noAssertion_reserve_iff.mpr hr : (r.reserve freed).NoAssertion).2.2⟩

/-- One event. -/
theorem step_noAssertion_iff {r : Receiver} (e : Event) (hr : r.NoAssertion) :
    (r.step e).NoAssertion ↔ r.SoundEvent e := by
  unfold step SoundEvent
  cases hs : r.status with
  | failed fault => cases e <;> simp [hr]
  | connected =>
    cases e with
    | bytes bytes memory =>
      simp only [true_implies]
      rw [← receiveLoop_noAssertion_iff memory.behind _ (r.markUsed bytes) hr]
      unfold receivedSomeBytes
      simp only
      split
      · exact noAssertion_reserve_iff
      · rfl
    | receiveError => exact ⟨fun _ => trivial, fun _ => noAssertion_close hr⟩
    | close => exact ⟨fun _ => trivial, fun _ => noAssertion_close hr⟩
    | connectComplete freed => exact ⟨fun _ => trivial, fun _ => hr⟩
  | stalled =>
    cases e with
    | bytes bytes memory => simp [hr]
    | receiveError => exact ⟨fun _ => trivial, fun _ => hr⟩
    | close => exact ⟨fun _ => trivial, fun _ => noAssertion_close hr⟩
    | connectComplete freed => exact ⟨fun _ => trivial, fun _ => noAssertion_connected hr freed⟩
  | closed =>
    cases e with
    | bytes bytes memory => simp [hr]
    | receiveError => exact ⟨fun _ => trivial, fun _ => hr⟩
    | close => exact ⟨fun _ => trivial, fun _ => hr⟩
    | connectComplete freed =>
      simp only [iff_true]
      split
      · exact noAssertion_connected hr freed
      · exact hr

/-- **No remote assertion.**  In a run of a new connection no assertion fails and no length gets
negative, in any state, if and only if every packet that the run makes it process is sound. -/
theorem always_noAssertion_iff (isOutgoing : Bool) (events : List Event) :
    Runs.Always (fun r e => some (step r e)) NoAssertion (create isOutgoing) events ↔
      Runs.Each (fun r e => some (step r e)) SoundEvent (create isOutgoing) events := by
  refine Runs.always_iff_each (I := NoAssertion) (L := fun _ _ => True) (fun _ h => h)
    (fun r e hr _ hsound => ⟨_, rfl, (step_noAssertion_iff e hr).mpr hsound⟩)
    (fun r e r' hr _ hunsound hstep hno => ?_) events _ ?_ ?_
  · obtain rfl := Option.some.inj hstep
    exact hunsound ((step_noAssertion_iff e hr).mp hno)
  · simp [NoAssertion, create]
  · exact Runs.each_of_forall (fun _ _ => trivial) events _

/-- A packet of three bytes, all of them length and the tag of a service id.  The number and
`HeaderEnd` are taken from the two bytes behind it. -/
theorem not_always_noAssertion_shortPacket :
    ¬ Runs.Always (fun r e => some (step r e)) NoAssertion (create true)
      [.bytes [0x03, 0x00, 0x08, 0x01, 0x04] .zeros] := by
  decide

-- the other two kinds: an integer with the tag of `Pong`, and a sequence of `-5` bytes
example : ¬ (create true).Sound [0x07, 0x00, 0x08, 0x01, 0x30, 0x01, 0x04, 0x00, 0x00] ∧
    ¬ (create true).Sound [0x08, 0x00, 0x08, 0x01, 0x19, 0x05, 0x24, 0x04, 0x00, 0x00] := by
  decide

end Receiver

end Network
