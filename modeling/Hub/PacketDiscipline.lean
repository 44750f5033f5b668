/-
# The discipline of outgoing packets

The peer cuts what it receives at the lengths that packets start with, and takes a packet of
more than `MAX_MESSAGE_SIZE` bytes for a corrupt stream.  So every packet has to be `Framed`.
Chunks always are.  A message that goes out in one packet is when the header leaves it the room,
and one with its own header when that header says the right size.

`queueMessage` refuses a message with its own header by the size of the body, where
`runMessageQueue` cuts messages by the size of all their bytes and asserts that there is no own
header.  A message whose own header makes the difference is accepted and fails the assertion.

* `sentFramed_iff` : which messages keep the discipline;
* `Sender.disciplined_iff_fitsPacket` : a connection that is given only such messages keeps it in
  every state, and the peer takes its packets.
-/
import Hub.HeaderRoom
import Hub.NetworkReceiver

namespace Network

open Streaming (MessageField)

/-! ## Packets that the peer accepts -/

/-- A packet that starts with its length in two bytes, and is not too long. -/
def Framed (p : List UInt8) : Prop :=
  2 ≤ p.length ∧ packetLength p = p.length ∧ p.length ≤ maxMessageSize

/-- **The peer takes a framed packet** off the front of what it has received: it hands it to
`processPacket`, and goes on behind it when that returns true. -/
theorem Receiver.receivePacket_of_framed {r r' : Receiver} {p rest : List UInt8} {ok : Bool}
    {behind : UInt8 × UInt8} (hr : r.receiveStream = p ++ rest) (hp : Framed p)
    (hproc : r.processPacket (p ++ rest ++ [behind.1, behind.2]) = (r', ok)) :
    r.receivePacket behind =
      if ok then ({ r' with receiveStream := r'.receiveStream.drop p.length }, .again)
      else (r', .stop) := by
  obtain ⟨htwo, hlength, hmax⟩ := hp
  have hfront : packetLength r.receiveStream = p.length := by
    rw [hr, packetLength_append htwo, hlength]
  have hall : ¬ r.receiveStream.length < p.length := by
    rw [hr, List.length_append]
    omega
  rw [Receiver.receivePacket, hfront, if_neg (not_lt.mpr hmax), if_neg hall, hr, hproc]
  cases ok with
  | false => simp
  | true => simp

/-! ## A generated header -/

theorem packetLength_headerBytes (fields : List MessageField) (bodySize : ℕ)
    (rest : List UInt8) : packetLength (headerBytes fields bodySize ++ rest)
      = ((headerBytes fields bodySize).length + bodySize) % 65536 := by
  have hlen := length_headerBytes fields bodySize
  rw [Receiver.packetLength_append (by omega), hlen, headerBytes_eq]
  set size := (Streaming.MessageParts.wires fields).length + 2 + bodySize with hsize
  show (UInt8.ofNat (size % 256)).toNat + 256 * (UInt8.ofNat (size / 256 % 256)).toNat = _
  rw [UInt8.toNat_ofNat', UInt8.toNat_ofNat']
  omega

/-- With a header of its own making, a packet is framed as long as it is not too long. -/
theorem framed_header_iff {fields : List MessageField} {body : List UInt8} :
    Framed (headerBytes fields body.length ++ body)
      ↔ (headerBytes fields body.length).length + body.length ≤ maxMessageSize := by
  have hlen := length_headerBytes fields body.length
  rw [Framed, packetLength_headerBytes, List.length_append]
  constructor
  · rintro ⟨-, -, h⟩
    exact h
  · intro h
    have hmax : maxMessageSize < 65536 := by decide
    refine ⟨by omega, Nat.mod_eq_of_lt (by omega), h⟩

/-- A chunk is framed. -/
theorem framed_chunk (m : Message) (first last : Bool) {chunk : List UInt8}
    (h : chunk.length ≤ chunkSize) :
    Framed (headerBytes (chunkFields m first last) chunk.length ++ chunk) := by
  have hs := (numberSize_le m.serviceId.toInt.natAbs).2
  have hi := (numberSize_le m.messageId.toInt.natAbs).2
  have hb := (numberSize_le m.body.length).2
  rw [framed_header_iff, length_chunkHeader, maxMessageSize]
  rw [chunkSize] at h
  split_ifs <;> omega

/-! ## Messages -/

/-- The packets of a message that are handed to the socket.  `createHeader` does not take a
message with a negative service. -/
def emitted (m : Message) : List Packet :=
  if ¬ m.size > chunkSize ∧ m.hasHeader = false ∧ m.serviceId < 0 then [] else packets m

/-- The message does not fail the assertion of `runMessageQueue`, and its packets are framed. -/
def SentFramed (m : Message) : Prop :=
  ¬ (m.size > chunkSize ∧ m.hasHeader = true) ∧ ∀ p ∈ emitted m, Framed p.bytes

/-- Together with its own header the message is not cut, and the header says the size; a
generated header leaves room for a message that is not cut. -/
def FitsPacket (m : Message) : Prop :=
  if m.hasHeader then
    m.size ≤ chunkSize ∧ 2 ≤ m.size ∧ packetLength m.rawData.bytes = m.size
  else
    m.size ≤ chunkSize → m.serviceId ≥ 0 →
      3 + (m.headerData.toList.map fun e => intSize e.1.toUInt32 e.2).sum + m.size
        ≤ maxMessageSize

instance (m : Message) : Decidable (FitsPacket m) :=
  inferInstanceAs (Decidable (if m.hasHeader then _ else _))

theorem length_chunkPacket (m : Message) (i : ℕ) : (chunkPacket m i).body.length ≤ chunkSize := by
  have hstart : chunkStart m (i + 1) ≤ chunkStart m i + chunkSize := by
    rw [chunkStart, chunkStart, Nat.mul_succ]
    omega
  show (Streaming.slice m.body _ _).length ≤ _
  rw [Streaming.slice, List.length_drop, List.length_take]
  omega

/-- **Which messages keep the discipline.** -/
theorem sentFramed_iff (m : Message) : SentFramed m ↔ FitsPacket m := by
  rw [SentFramed, FitsPacket, emitted]
  by_cases hlarge : m.size > chunkSize
  · rw [if_neg (fun h => h.1 hlarge), packets_of_large hlarge]
    by_cases hown : m.hasHeader = true
    · rw [if_pos hown]
      exact iff_of_false (fun h => h.1 ⟨hlarge, hown⟩) (fun h => absurd h.1 (not_le.mpr hlarge))
    · rw [if_neg hown]
      refine iff_of_true ⟨fun h => hown h.2, fun p hp => ?_⟩
        (fun hsmall => absurd hlarge (not_lt.mpr hsmall))
      obtain ⟨i, -, rfl⟩ := List.mem_map.mp hp
      have hchunk := framed_chunk m (i = 0) (i + 1 = chunkCount m.body.length)
        (length_chunkPacket m i)
      simpa [Packet.bytes, chunkPacket] using hchunk
  · have hle : m.size ≤ chunkSize := not_lt.mp hlarge
    by_cases hown : m.hasHeader = true
    · -- the only packet is the message
      rw [if_neg (by simp [hown]), packets, if_neg hlarge, if_pos hown, if_pos hown]
      have hmax : chunkSize ≤ maxMessageSize := by decide
      simp only [List.mem_singleton, forall_eq, Packet.bytes, List.flatten_nil, List.nil_append,
        Framed]
      constructor
      · rintro ⟨-, htwo, hlength, -⟩
        exact ⟨hle, htwo, hlength⟩
      · rintro ⟨-, htwo, hlength⟩
        exact ⟨fun h => hlarge h.1, htwo, hlength, hle.trans hmax⟩
    · rw [if_neg hown]
      have hown' : m.hasHeader = false := by simpa using hown
      by_cases hservice : m.serviceId < 0
      · rw [if_pos ⟨hlarge, hown', hservice⟩]
        refine iff_of_true ⟨fun h => hlarge h.1, fun p hp => (by cases hp)⟩ fun _ h => ?_
        exact absurd h (by simpa using hservice)
      · -- the only packet is the generated header with the message
        rw [if_neg (fun h => hservice h.2.2), packets, if_neg hlarge, if_neg hown]
        have hpacket : Framed (Packet.bytes ⟨[simpleHeader m], m.rawData.bytes⟩)
            ↔ 3 + (m.headerData.toList.map fun e => intSize e.1.toUInt32 e.2).sum + m.size
              ≤ maxMessageSize := by
          rw [← length_simpleHeader m m.size]
          show Framed ([simpleHeader m].flatten ++ m.rawData.bytes) ↔ _
          rw [List.flatten_singleton, simpleHeader, Message.size, framed_header_iff]
        constructor
        · rintro ⟨-, h⟩ - -
          exact hpacket.mp (h _ (List.mem_singleton_self _))
        · intro h
          refine ⟨fun h => hlarge h.1, fun p hp => ?_⟩
          obtain rfl := List.mem_singleton.mp hp
          exact hpacket.mpr (h hle (by simpa using hservice))

/-! ## Rounds -/

/-- The round has sent packets of messages of the queue. -/
def SendsPackets (queue : List Message) (r r' : Round) : Prop :=
  ∃ sent : List Packet, Extends r r' sent ∧ ∀ p ∈ sent, ∃ m ∈ queue, p ∈ emitted m

theorem SendsPackets.refl (queue : List Message) (r : Round) : SendsPackets queue r r :=
  ⟨[], Extends.refl r, by simp⟩

theorem SendsPackets.mono {queue queue' : List Message} {r r' : Round}
    (h : SendsPackets queue r r') (hsub : ∀ m ∈ queue, m ∈ queue') : SendsPackets queue' r r' := by
  obtain ⟨sent, hext, hsent⟩ := h
  refine ⟨sent, hext, fun p hp => ?_⟩
  obtain ⟨m, hm, hpm⟩ := hsent p hp
  exact ⟨m, hsub m hm, hpm⟩

theorem SendsPackets.trans {queue : List Message} {r₁ r₂ r₃ : Round}
    (h₁ : SendsPackets queue r₁ r₂) (h₂ : SendsPackets queue r₂ r₃) :
    SendsPackets queue r₁ r₃ := by
  obtain ⟨x, hx, hsent⟩ := h₁
  obtain ⟨y, hy, hsent'⟩ := h₂
  refine ⟨x ++ y, hx.trans hy, fun p hp => ?_⟩
  rcases List.mem_append.mp hp with h | h
  · exact hsent p h
  · exact hsent' p h

section Rounds

variable {grow : ℕ → ℕ}

/-- A message that is sent in one packet. -/
theorem sendsPackets_pushMessage {m : Message} {r r' : Round} (hsmall : ¬ m.size > chunkSize)
    (h : pushMessage grow m r = some r') : SendsPackets [m] r r' := by
  -- a message without a header has passed the assertion on its service
  have hemitted : emitted m = packets m := by
    rw [emitted, if_neg]
    rintro ⟨-, hown, hservice⟩
    rw [pushMessage, if_neg (by simp [hown])] at h
    simp only [createHeader, Option.bind_eq_bind, Option.bind_eq_some_iff] at h
    obtain ⟨-, ⟨_, hguard, -⟩, -⟩ := h
    have hpositive : m.serviceId ≥ 0 := by
      by_contra hno
      rw [guard, if_neg hno] at hguard
      cases hguard
    exact absurd hservice (by simpa using hpositive)
  exact ⟨packets m, pushMessage_spec hsmall h, fun p hp =>
    ⟨m, List.mem_singleton_self m, hemitted ▸ hp⟩⟩

/-- The chunks of a message, from any multiple of their size on; the loop stops at such a multiple,
or at the end of the message. -/
theorem sendsPackets_chunkLoop {m : Message} (hlarge : m.size > chunkSize) {i stop : ℕ}
    {r r' : Round} (h : chunkLoop grow m m.body.length (chunkSize * i)
      (decide (chunkSize * i = 0)) none r = some (stop, r')) :
    SendsPackets [m] r r' ∧ (m.body.length ≤ stop ∨ ∃ j, stop = chunkSize * j) := by
  by_cases hlt : chunkSize * i < m.body.length
  · have hi := lt_chunkCount_iff.mpr hlt
    have hzero : decide (chunkSize * i = 0) = decide (i = 0) := by
      rw [decide_eq_decide, chunkSize]
      omega
    have hcount := chunkCount_le m.body.length
    rw [hzero, ← chunkStart_of_lt hi] at h
    obtain ⟨j, -, hj, -, hext, rfl, -⟩ :=
      chunkLoop_spec (by rintro header ⟨⟩) hi.le (by omega) h
    refine ⟨⟨_, hext, fun p hp => ⟨m, List.mem_singleton_self m, ?_⟩⟩, ?_⟩
    · obtain ⟨k, hk, rfl⟩ := List.mem_map.mp hp
      obtain ⟨hik, hkj⟩ := List.mem_range'_1.mp hk
      rw [emitted, if_neg (fun hno => hno.1 hlarge), packets_of_large hlarge]
      exact List.mem_map.mpr ⟨k, List.mem_range.mpr (by omega), rfl⟩
    · rcases Nat.lt_or_ge j (chunkCount m.body.length) with hlast | hlast
      · exact .inr ⟨j, chunkStart_of_lt hlast⟩
      · exact .inl (chunkStart_of_le hlast).ge
  · -- the number of bytes is from another message, which was longer
    rw [chunkLoop_of_le (not_lt.mp hlt)] at h
    obtain ⟨rfl, rfl⟩ : chunkSize * i = stop ∧ r = r' := by simpa using h
    exact ⟨SendsPackets.refl _ r, .inl (not_lt.mp hlt)⟩

/-- A round of the message queue, at whatever chunk `m_messageBytesSend` is. -/
theorem sendsPackets_messageLoop : ∀ {queue finished : List Message} {i bytesSend' : ℕ}
    {r r' : Round}, messageLoop grow queue (chunkSize * i) r = some (finished, bytesSend', r') →
    SendsPackets queue r r' ∧ ∃ j, bytesSend' = chunkSize * j := by
  intro queue
  induction queue with
  | nil =>
    intro finished i bytesSend' r r' h
    obtain ⟨-, rfl, rfl⟩ : [] = finished ∧ chunkSize * i = bytesSend' ∧ r = r' := by
      simpa [messageLoop] using h
    exact ⟨SendsPackets.refl _ r, i, rfl⟩
  | cons m ms ih =>
    intro finished i bytesSend' r r' h
    have hfirst : ∀ x ∈ [m], x ∈ m :: ms := fun x hx =>
      List.mem_singleton.mp hx ▸ List.mem_cons_self
    have hrest : ∀ x ∈ ms, x ∈ m :: ms := fun x hx => List.mem_cons_of_mem m hx
    rw [messageLoop] at h
    by_cases hfull : r.bytesLeft ≤ 0
    · rw [if_pos hfull] at h
      obtain ⟨-, rfl, rfl⟩ : [] = finished ∧ chunkSize * i = bytesSend' ∧ r = r' := by
        simpa using h
      exact ⟨SendsPackets.refl _ r, i, rfl⟩
    rw [if_neg hfull] at h
    by_cases hlarge : m.size > chunkSize
    · rw [if_pos hlarge] at h
      simp only [Option.bind_eq_bind, Option.bind_eq_some_iff] at h
      obtain ⟨_, -, ⟨stop, mid⟩, hchunks, ⟨fin, bytesSend₁, r₁⟩, hloop, h⟩ := h
      simp only [Option.some.injEq, Prod.mk.injEq] at h
      obtain ⟨-, rfl, rfl⟩ := h
      obtain ⟨hone, hstop⟩ := sendsPackets_chunkLoop hlarge hchunks
      -- the next message starts at its beginning, or the loop has stopped inside this one
      obtain ⟨j, hj⟩ : ∃ j, (if stop ≥ m.body.length then 0 else stop) = chunkSize * j := by
        rcases hstop with hdone | ⟨j, rfl⟩
        · exact ⟨0, if_pos hdone⟩
        · split
          · exact ⟨0, rfl⟩
          · exact ⟨j, rfl⟩
      simp only [hj] at hloop
      obtain ⟨hmore, hbytes⟩ := ih hloop
      exact ⟨(hone.mono hfirst).trans (hmore.mono hrest), hbytes⟩
    · rw [if_neg hlarge] at h
      simp only [Option.bind_eq_bind, Option.bind_eq_some_iff] at h
      obtain ⟨mid, hpush, ⟨fin, bytesSend₁, r₁⟩, hloop, h⟩ := h
      obtain ⟨-, rfl, rfl⟩ : m :: fin = finished ∧ bytesSend₁ = bytesSend' ∧ r₁ = r' := by
        simpa using h
      obtain ⟨hmore, hbytes⟩ := ih hloop
      exact ⟨((sendsPackets_pushMessage hlarge hpush).mono hfirst).trans (hmore.mono hrest), hbytes⟩

/-- A round of the priority queue. -/
theorem sendsPackets_priorityLoop : ∀ {queue sent left : List Message} {r r' : Round},
    (∀ m ∈ queue, ¬ m.size > chunkSize) →
    priorityLoop grow queue r = some (sent, left, r') →
    SendsPackets queue r r' ∧ ∀ m ∈ left, m ∈ queue := by
  intro queue
  induction queue with
  | nil =>
    intro sent left r r' _ h
    obtain ⟨-, rfl, rfl⟩ : [] = sent ∧ [] = left ∧ r = r' := by simpa [priorityLoop] using h
    exact ⟨SendsPackets.refl _ r, by simp⟩
  | cons m ms ih =>
    intro sent left r r' hsmall h
    rw [priorityLoop] at h
    simp only [Option.bind_eq_bind, Option.bind_eq_some_iff] at h
    obtain ⟨mid, hpush, h⟩ := h
    have hone : SendsPackets (m :: ms) r mid :=
      (sendsPackets_pushMessage (hsmall m List.mem_cons_self) hpush).mono fun x hx =>
        List.mem_singleton.mp hx ▸ List.mem_cons_self
    by_cases hfull : mid.bytesLeft ≤ 0
    · rw [if_pos hfull] at h
      obtain ⟨-, rfl, rfl⟩ : [m] = sent ∧ ms = left ∧ mid = r' := by simpa using h
      exact ⟨hone, fun x hx => List.mem_cons_of_mem m hx⟩
    · rw [if_neg hfull] at h
      simp only [Option.bind_eq_some_iff] at h
      obtain ⟨⟨sent', left', r₁⟩, hloop, h⟩ := h
      obtain ⟨-, rfl, rfl⟩ : m :: sent' = sent ∧ left' = left ∧ r₁ = r' := by simpa using h
      obtain ⟨hsends, hleft⟩ := ih (fun x hx => hsmall x (List.mem_cons_of_mem m hx)) hloop
      exact ⟨hone.trans (hsends.mono fun x hx => List.mem_cons_of_mem m hx),
        fun x hx => List.mem_cons_of_mem m (hleft x hx)⟩

end Rounds

/-! ## The connection -/

namespace Sender

/-- What happens to the sending half of a connection: a message to queue, a call of
`runMessageQueue`, a write that succeeds or fails, and `close`. -/
inductive SendEvent where
  | queueMessage (m : Message) (priority : MessagePriority)
  | runMessageQueue
  | sentSomeBytes (bytesTransferred : ℕ)
  | sentError
  | close

/-- What `close` does to the sending half of an outgoing connection.  The pool is left without
memory and at its default size, and takes all of that to be free. -/
def close (s : Sender) : Sender :=
  { s with
    messageQueue := []
    priorityMessageQueue := []
    sentPriorityMessages := []
    sendQHeaders := []
    messageBytesSend := 0
    messageBytesSent := 0
    helper := ⟨defaultPoolSize, defaultPoolSize⟩ }

/-- One event; `none` is a failed assertion. -/
def sendStep (grow : ℕ → ℕ) (s : Sender) : SendEvent → Option Sender
  | .queueMessage m priority => some (s.queueMessage m priority)
  | .runMessageQueue => s.runMessageQueue grow
  | .sentSomeBytes bytesTransferred => s.sentSomeBytes bytesTransferred
  | .sentError => some s.sentError
  | .close => some s.close

/-- A run of the sending half. -/
def sendRun (grow : ℕ → ℕ) (s : Sender) (events : List SendEvent) : Option Sender :=
  events.foldlM (sendStep grow) s

/-- The message is given to `queueMessage`, which accepts it. -/
def Accepted (events : List SendEvent) (m : Message) : Prop :=
  ∃ priority, .queueMessage m priority ∈ events ∧ Accepts m priority

/-- No queued message would fail the assertion that a large one has no own header, and the bytes of
the write that goes on are framed packets of messages that were accepted. -/
structure Disciplined (accepted : Message → Prop) (s : Sender) : Prop where
  noOwnHeader : ∀ m ∈ s.messageQueue, ¬ (m.size > chunkSize ∧ m.hasHeader = true)
  inFlight : ∀ handed ∈ s.inFlight, ∃ ps : List Packet, handed.bytes = ps.flatMap Packet.bytes ∧
    ∀ p ∈ ps, Framed p.bytes ∧ ∃ m, accepted m ∧ p ∈ emitted m

/-- What waits was accepted, and what is written are packets of accepted messages. -/
structure FromAccepted (accepted : Message → Prop) (s : Sender) : Prop where
  queue : ∀ m ∈ s.messageQueue, accepted m
  priority : ∀ m ∈ s.priorityMessageQueue, accepted m ∧ ¬ m.size > chunkSize
  chunk : ∃ i, s.messageBytesSend = chunkSize * i
  inFlight : ∀ handed ∈ s.inFlight, ∃ ps : List Packet, handed.bytes = ps.flatMap Packet.bytes ∧
    ∀ p ∈ ps, ∃ m, accepted m ∧ p ∈ emitted m

section FromAccepted

variable {accepted : Message → Prop} {s s' : Sender}

/-- Messages that fit keep the discipline. -/
theorem FromAccepted.disciplined (h : s.FromAccepted accepted)
    (hfits : ∀ m, accepted m → FitsPacket m) : s.Disciplined accepted where
  noOwnHeader m hm := ((sentFramed_iff m).mpr (hfits m (h.queue m hm))).1
  inFlight handed hhanded := by
    obtain ⟨ps, hbytes, hps⟩ := h.inFlight handed hhanded
    refine ⟨ps, hbytes, fun p hp => ?_⟩
    obtain ⟨m, hm, hpm⟩ := hps p hp
    exact ⟨((sentFramed_iff m).mpr (hfits m hm)).2 p hpm, m, hm, hpm⟩

theorem fromAccepted_create : create.FromAccepted accepted :=
  ⟨by simp [create], by simp [create], ⟨0, rfl⟩, by simp [create]⟩

theorem FromAccepted.queueMessage (h : s.FromAccepted accepted) {m : Message}
    {priority : MessagePriority} (hm : Accepts m priority → accepted m) :
    (s.queueMessage m priority).FromAccepted accepted := by
  unfold Sender.queueMessage
  by_cases haccepts : Accepts m priority
  · rw [if_pos haccepts]
    cases priority with
    | normalPriority =>
      refine ⟨fun x hx => ?_, h.priority, h.chunk, h.inFlight⟩
      rcases List.mem_append.mp hx with hx | hx
      · exact h.queue x hx
      · rw [List.mem_singleton.mp hx]
        exact hm haccepts
    | highPriority =>
      refine ⟨h.queue, fun x hx => ?_, h.chunk, h.inFlight⟩
      rcases List.mem_append.mp hx with hx | hx
      · exact h.priority x hx
      · rw [List.mem_singleton.mp hx]
        exact ⟨hm haccepts, fun hlarge => haccepts.2.2 ⟨rfl, hlarge⟩⟩
  · rw [if_neg haccepts]
    exact h

/-- A round hands packets of the queued messages to the socket. -/
theorem FromAccepted.runMessageQueue {grow : ℕ → ℕ} (h : s.FromAccepted accepted)
    (hrun : s.runMessageQueue grow = some s') : s'.FromAccepted accepted := by
  obtain rfl | ⟨-, -, sent, left, mid, finished, bytesSend, r, hpriority, hmessages, rfl⟩ :=
    Sender.runMessageQueue_cases hrun
  · exact h
  · obtain ⟨i, hi⟩ := h.chunk
    rw [hi] at hmessages
    obtain ⟨hfirst, hleft⟩ := sendsPackets_priorityLoop (fun m hm => (h.priority m hm).2) hpriority
    obtain ⟨hsecond, hchunk⟩ := sendsPackets_messageLoop hmessages
    obtain ⟨ps, hext, hps⟩ := SendsPackets.trans
      (hfirst.mono fun m hm => List.mem_append_left s.messageQueue hm)
      (hsecond.mono fun m hm => List.mem_append_right s.priorityMessageQueue hm)
    refine ⟨h.queue, fun m hm => h.priority m (hleft m hm), hchunk, ?_⟩
    rintro handed ⟨⟩
    have hbytes : r.socketQueue.flatten = ps.flatMap Packet.bytes := by simpa using hext.socket
    refine ⟨ps, hbytes, fun p hp => ?_⟩
    obtain ⟨m, hm, hpm⟩ := hps p hp
    rcases List.mem_append.mp hm with hm | hm
    · exact ⟨m, (h.priority m hm).1, hpm⟩
    · exact ⟨m, h.queue m hm, hpm⟩

/-- A write that succeeds takes messages off. -/
theorem FromAccepted.sentSomeBytes {bytesTransferred : ℕ} (h : s.FromAccepted accepted)
    (hsent : s.sentSomeBytes bytesTransferred = some s') : s'.FromAccepted accepted := by
  unfold Sender.sentSomeBytes at hsent
  simp only [Option.bind_eq_bind, Option.bind_eq_some_iff] at hsent
  obtain ⟨⟨n, headers, bytesLeft⟩, -, hsent⟩ := hsent
  obtain rfl := Option.some.inj hsent
  exact ⟨fun m hm => h.queue m (List.mem_of_mem_drop hm), h.priority, h.chunk,
    by rintro handed ⟨⟩⟩

/-- One event. -/
theorem FromAccepted.sendStep {grow : ℕ → ℕ} {e : SendEvent} (h : s.FromAccepted accepted)
    (he : ∀ m priority, e = .queueMessage m priority → Accepts m priority → accepted m)
    (hstep : s.sendStep grow e = some s') : s'.FromAccepted accepted := by
  cases e with
  | queueMessage m priority =>
    obtain rfl := Option.some.inj hstep
    exact h.queueMessage (he m priority rfl)
  | runMessageQueue => exact h.runMessageQueue hstep
  | sentSomeBytes bytesTransferred => exact h.sentSomeBytes hstep
  | sentError =>
    obtain rfl := Option.some.inj hstep
    exact ⟨h.queue, h.priority, ⟨0, rfl⟩, by rintro handed ⟨⟩⟩
  | close =>
    obtain rfl := Option.some.inj hstep
    exact ⟨by simp [close], by simp [close], ⟨0, rfl⟩, h.inFlight⟩

end FromAccepted

theorem fromAccepted_of_run {grow : ℕ → ℕ} {events : List SendEvent} {s : Sender}
    (hrun : create.sendRun grow events = some s) : s.FromAccepted (Accepted events) := by
  refine Runs.foldlM_inv (fun t e t' hmem ht hstep => ?_) fromAccepted_create hrun
  refine ht.sendStep (fun m priority he haccepts => ⟨priority, ?_, haccepts⟩) hstep
  exact he ▸ hmem

/-- **The discipline.**  A message keeps it exactly when it fits; a connection whose messages fit
keeps it in every state; and the peer takes every packet that keeps it. -/
theorem disciplined_iff_fitsPacket (grow : ℕ → ℕ) :
    (∀ m priority, Accepts m priority → (SentFramed m ↔ FitsPacket m)) ∧
    (∀ (events : List SendEvent) (s : Sender),
      (∀ m priority, .queueMessage m priority ∈ events → Accepts m priority → FitsPacket m) →
      create.sendRun grow events = some s → s.Disciplined (Accepted events)) ∧
    ∀ (p rest : List UInt8) (r : Receiver) (behind : UInt8 × UInt8), Framed p →
      r.receiveStream = p ++ rest →
      ∀ r' ok, r.processPacket (p ++ rest ++ [behind.1, behind.2]) = (r', ok) →
        r.receivePacket behind =
          if ok then ({ r' with receiveStream := r'.receiveStream.drop p.length }, .again)
          else (r', .stop) := by
  refine ⟨fun m _ _ => sentFramed_iff m, fun events s hfits hrun => ?_,
    fun p rest r behind hp hr r' ok hproc => Receiver.receivePacket_of_framed hr hp hproc⟩
  refine (fromAccepted_of_run hrun).disciplined fun m hm => ?_
  obtain ⟨priority, hmem, haccepts⟩ := hm
  exact hfits m priority hmem haccepts

/-- A large message with its own header that `queueMessage` accepts fails the assertion of the
next round. -/
theorem sendRun_eq_none_of_ownHeader (grow : ℕ → ℕ) {m : Message}
    (haccepts : Accepts m .normalPriority) (hlarge : m.size > chunkSize)
    (hown : m.hasHeader = true) :
    create.sendRun grow [.queueMessage m .normalPriority, .runMessageQueue] = none := by
  have hqueue : create.sendStep grow (.queueMessage m .normalPriority)
      = some { create with messageQueue := [m] } := by
    rw [sendStep, queueMessage, if_pos haccepts]
    rfl
  have hround : ∀ r : Round, r.bytesLeft > 0 → messageLoop grow [m] 0 r = none := by
    intro r hr
    rw [messageLoop, if_neg (not_le.mpr hr), if_pos hlarge, hown]
    rfl
  rw [sendRun, List.foldlM_cons, hqueue]
  show (Sender.runMessageQueue grow { create with messageQueue := [m] }).bind _ = _
  rw [Sender.runMessageQueue, if_neg (by simp [create])]
  show ((messageLoop grow [m] 0 _).bind _).bind _ = none
  rw [hround _ (show (0 : ℤ) < 250 * 1024 by decide)]
  rfl

/-- A message of three bytes for a service. -/
def plainMessage : Message := Message.ofPayload ⟨[1, 2, 3], Nat.le_of_ble_eq_true rfl⟩ 16 2

theorem disciplined_iff_fitsPacket_plainMessage : SentFramed plainMessage ∧
    ∃ s, create.sendRun id [.queueMessage plainMessage .normalPriority, .runMessageQueue] = some s ∧
      s.inFlight.isSome ∧ s.Disciplined (Accepted
        [.queueMessage plainMessage .normalPriority, .runMessageQueue]) := by
  have hfits : FitsPacket plainMessage := by decide +kernel
  obtain ⟨hsome, hflight⟩ : ∃ h : (create.sendRun id
      [.queueMessage plainMessage .normalPriority, .runMessageQueue]).isSome,
      ((create.sendRun id [.queueMessage plainMessage .normalPriority, .runMessageQueue]).get
        h).inFlight.isSome := by decide +kernel
  refine ⟨((disciplined_iff_fitsPacket id).1 plainMessage .normalPriority (by decide +kernel)).mpr
    hfits, _, (Option.some_get hsome).symm, hflight, ?_⟩
  apply (disciplined_iff_fitsPacket id).2.1
    [.queueMessage plainMessage .normalPriority, .runMessageQueue]
  · intro m priority hm _
    obtain ⟨rfl, -⟩ : m = plainMessage ∧ priority = .normalPriority := by simpa using hm
    exact hfits
  · exact (Option.some_get hsome).symm

theorem length_body (m : Message) : m.body.length = m.size - m.headerSize := List.length_drop

/-- A header of 210 bytes that says the size of the message with its body of 7900 bytes. -/
def longHeader : List UInt8 :=
  headerBytes [⟨Network.serviceId, .int32 16⟩, ⟨Network.messageId, .int32 3⟩,
    ⟨20, .bytes (List.replicate 200 1)⟩, headerEndField] 7900

theorem length_longHeader : longHeader.length = 210 := by decide +kernel

/-- The message with that header. -/
def longHeaderMessage : Message where
  rawData := ⟨longHeader ++ List.replicate 7900 0, by
    rw [List.length_append, length_longHeader, List.length_replicate]
    decide⟩
  headerSize := 210
  headerSize_le := by
    rw [List.length_append, length_longHeader]
    omega
  headerData := ∅

theorem size_longHeaderMessage : longHeaderMessage.size = 8110 := by
  have hsize : longHeaderMessage.size = longHeader.length + 7900 := by
    simp only [longHeaderMessage, Message.size, List.length_append, List.length_replicate]
  rw [hsize, length_longHeader]

/-- It is queued, and fails the assertion of the next round. -/
theorem not_disciplined_longHeader : Accepts longHeaderMessage .normalPriority ∧
    ¬ SentFramed longHeaderMessage ∧
    ∀ grow, create.sendRun grow
      [.queueMessage longHeaderMessage .normalPriority, .runMessageQueue] = none := by
  have hsize : longHeaderMessage.size = 8110 := size_longHeaderMessage
  have hheader : longHeaderMessage.headerSize = 210 := rfl
  have hbody := length_body longHeaderMessage
  have hown : longHeaderMessage.hasHeader = true := rfl
  have hchunk : chunkSize = 8000 := rfl
  have hlarge : longHeaderMessage.size > chunkSize := by omega
  have haccepts : Accepts longHeaderMessage .normalPriority := by
    refine ⟨fun h => ?_, fun h => ?_, fun h => ?_⟩
    · rw [hown] at h
      cases h.1
    · rw [hbody] at h
      omega
    · cases h.1
  exact ⟨haccepts, fun h => h.1 ⟨hlarge, hown⟩,
    fun grow => sendRun_eq_none_of_ownHeader grow haccepts hlarge hown⟩

end Sender

end Network
