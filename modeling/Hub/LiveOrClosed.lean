/-
# Live or closed

Behind `receivedSomeBytes` a connection waits for more bytes, or is closed.  The function returns
without a receive that is pending whenever `processPacket` returns false, and most paths there
close the connection first, or find it closed by a callback.  One does not: a chunk that does not
fit in the buffer of its sequence.  A connection that returns on that path stays open, and never
reads again.

A callback may disconnect.  `hangsUp` tells, from the messages that were delivered so far, whether
one does so for the last of them.  A message whose body starts behind its end is delivered too, and
the loop goes on behind it.
-/
import Hub.NetworkReceiver

namespace Network

namespace Receiver

/-- The connection has not returned from `receivedSomeBytes` without a pending receive while the
socket is open. -/
def LiveOrClosed (r : Receiver) : Prop := r.status ≠ .stalled

instance (r : Receiver) : Decidable r.LiveOrClosed :=
  inferInstanceAs (Decidable (r.status ≠ .stalled))

/-! ## One packet -/

/-- A chunk that gets as far as the buffer: it is part of a sequence, not refused, announces no
negative size, and its header ends inside the packet. -/
structure ReachesBuffer (r : Receiver) (data : List UInt8) (h : PacketHeader) : Prop where
  service : h.serviceId ≠ -1 ∧ h.serviceId ≠ systemServiceId
  inSequence : h.lastInSequence ≠ none
  notRefused : ¬ r.Refuses h
  size : h.sequenceSize ≠ -1 → 0 ≤ h.sequenceSize
  endsInside : EndsInside data h

instance (r : Receiver) (data : List UInt8) (h : PacketHeader) :
    Decidable (r.ReachesBuffer data h) :=
  decidable_of_iff ((h.serviceId ≠ -1 ∧ h.serviceId ≠ systemServiceId) ∧
      h.lastInSequence ≠ none ∧ ¬ r.Refuses h ∧ (h.sequenceSize ≠ -1 → 0 ≤ h.sequenceSize) ∧
      EndsInside data h)
    ⟨fun ⟨a, b, c, d, e⟩ => ⟨a, b, c, d, e⟩, fun ⟨a, b, c, d, e⟩ => ⟨a, b, c, d, e⟩⟩

/-- A chunk that gets as far as the buffer fits in it. -/
def ChunkFits (r : Receiver) (data : List UInt8) : Prop :=
  match readHeader data with
  | .complete h => r.ReachesBuffer data h →
      (packetBody data h).length ≤ (r.startSequence h).chunkedMessageBuffer.capacity
  | _ => True

instance (r : Receiver) (data : List UInt8) : Decidable (r.ChunkFits data) :=
  match hread : readHeader data with
  | .complete h => decidable_of_iff (r.ReachesBuffer data h →
      (packetBody data h).length ≤ (r.startSequence h).chunkedMessageBuffer.capacity)
      (by rw [ChunkFits, hread])
  | .malformed => .isTrue (by rw [ChunkFits, hread]; trivial)
  | .endless => .isTrue (by rw [ChunkFits, hread]; trivial)

theorem liveOrClosed_close (r : Receiver) : r.close.LiveOrClosed := by
  unfold close
  split <;> simp [LiveOrClosed]

theorem liveOrClosed_fail (r : Receiver) (fault : Fault) : (r.fail fault).LiveOrClosed := by
  simp [LiveOrClosed, fail]

section Packet

variable {r : Receiver} (hr : r.LiveOrClosed)

include hr

theorem liveOrClosed_deliver (d : Delivery) (h : PacketHeader) :
    (r.deliver d h).1.LiveOrClosed := by
  unfold deliver
  split
  · exact r.liveOrClosed_fail _
  · exact hr

/-- The path that does not close the connection. -/
theorem liveOrClosed_appendChunk_iff (data : List UInt8) (h : PacketHeader) (last : Bool) :
    (r.appendChunk data h last).1.LiveOrClosed ↔
      (EndsInside data h → (packetBody data h).length ≤ r.chunkedMessageBuffer.capacity) := by
  unfold appendChunk EndsInside
  by_cases hinside : packetLength data < h.headerSize + 2
  · rw [if_pos hinside]
    exact iff_of_true (r.liveOrClosed_fail _) (fun hle => absurd hinside (not_lt.mpr hle))
  rw [if_neg hinside]
  by_cases hroom : (packetBody data h).length ≤ r.chunkedMessageBuffer.capacity
  · rw [dif_pos hroom]
    refine iff_of_true ?_ fun _ => hroom
    split
    · exact r.liveOrClosed_fail _
    · split
      · exact liveOrClosed_deliver (by exact hr) _ h
      · exact hr
  · rw [dif_neg hroom]
    refine iff_of_false (fun hlive => hlive rfl) fun hall => ?_
    exact hroom (hall (not_lt.mp hinside))

/-- **One packet.**  `processPacket` leaves the connection open without a receive exactly when a
chunk reaches the buffer and does not fit. -/
theorem liveOrClosed_processPacket_iff (data : List UInt8) :
    (r.processPacket data).1.LiveOrClosed ↔ r.ChunkFits data := by
  unfold processPacket ChunkFits
  cases hread : readHeader data with
  | endless => exact iff_of_true (r.liveOrClosed_fail _) trivial
  | malformed => exact iff_of_true r.liveOrClosed_close trivial
  | complete h =>
    show (r.processHeader data h).1.LiveOrClosed ↔ (r.ReachesBuffer data h → _)
    unfold processHeader
    by_cases hnone : h.serviceId = -1
    · rw [if_pos hnone]
      exact iff_of_true r.liveOrClosed_close fun hreach => absurd hnone hreach.service.1
    rw [if_neg hnone]
    by_cases hsystem : h.serviceId = systemServiceId
    · rw [if_pos hsystem]
      exact iff_of_true hr fun hreach => absurd hsystem hreach.service.2
    rw [if_neg hsystem]
    cases hlast : h.lastInSequence with
    | none =>
      exact iff_of_true (liveOrClosed_deliver hr _ h) fun hreach =>
        absurd hlast hreach.inSequence
    | some last =>
      show (r.processChunk data h last).1.LiveOrClosed ↔ _
      unfold processChunk
      by_cases hrefuse : r.Refuses h
      · rw [if_pos hrefuse]
        exact iff_of_true r.liveOrClosed_close fun hreach => absurd hrefuse hreach.notRefused
      rw [if_neg hrefuse]
      by_cases hsize : h.sequenceSize ≠ -1 ∧ ¬ 0 ≤ h.sequenceSize
      · rw [if_pos hsize]
        exact iff_of_true (r.liveOrClosed_fail _) fun hreach =>
          absurd (hreach.size hsize.1) hsize.2
      rw [if_neg hsize]
      have hstart : (r.startSequence h).LiveOrClosed := by
        unfold startSequence
        split <;> exact hr
      rw [liveOrClosed_appendChunk_iff hstart]
      have hpos : h.sequenceSize ≠ -1 → 0 ≤ h.sequenceSize := by
        intro hne
        by_contra hneg
        exact hsize ⟨hne, hneg⟩
      exact ⟨fun hall hreach => hall hreach.endsInside, fun hall hinside =>
        hall ⟨⟨hnone, hsystem⟩, by simp [hlast], hrefuse, hpos, hinside⟩⟩

end Packet

/-! ## Callbacks that disconnect -/

section Callbacks

variable (hangsUp : List Delivery → Bool)

/-- A round of the loop in `receivedSomeBytes`.  When a callback has closed the connection,
`processPacket` returns false, and the packet is still in the receive buffer. -/
def roundThen (r : Receiver) (behind : UInt8 × UInt8) : Receiver × RoundEnd :=
  match r.round behind with
  | (r', .again) =>
      if r.delivered.length < r'.delivered.length ∧ hangsUp r'.delivered then
        ({ r' with receiveStream := r.receiveStream }.close, .stop)
      else (r', .again)
  | res => res

/-- The loop. -/
def receiveLoopThen (behind : UInt8 × UInt8) : ℕ → Receiver → Receiver
  | 0, r => r
  | rounds + 1, r =>
      match r.roundThen hangsUp behind with
      | (r, .again) => receiveLoopThen behind rounds r
      | (r, _) => r

/-- `receivedSomeBytes`. -/
def receivedSomeBytesThen (r : Receiver) (bytes : List UInt8) (memory : Memory) : Receiver :=
  let r := receiveLoopThen hangsUp memory.behind (r.receiveStream ++ bytes).length
    (r.markUsed bytes)
  if r.status = .connected then r.reserve memory.freed else r

/-- One event. -/
def stepThen (r : Receiver) (e : Event) : Receiver :=
  match r.status, e with
  | .connected, .bytes bytes memory => r.receivedSomeBytesThen hangsUp bytes memory
  | _, _ => r.step e

/-- Every round of the loop starts in a state that meets `C`. -/
def EachRound (C : Receiver → Prop) (behind : UInt8 × UInt8) : ℕ → Receiver → Prop
  | 0, _ => True
  | rounds + 1, r =>
      C r ∧
        match r.roundThen hangsUp behind with
        | (r, .again) => EachRound C behind rounds r
        | _ => True

/-- The packet that a round processes is no chunk that does not fit. -/
def RoundFits (behind : UInt8 × UInt8) (r : Receiver) : Prop :=
  r.HasPacket →
    { r with firstPacket := false }.ChunkFits (r.receiveStream ++ [behind.1, behind.2])

/-- Every chunk of the packets that an event brings fits in the buffer of its sequence. -/
def FittingEvent (r : Receiver) (e : Event) : Prop :=
  match e with
  | .bytes bytes memory => r.status = .connected →
      EachRound hangsUp (RoundFits memory.behind) memory.behind (r.receiveStream ++ bytes).length
        (r.markUsed bytes)
  | _ => True

/-- A round. -/
theorem liveOrClosed_roundThen_iff {r : Receiver} (hr : r.LiveOrClosed)
    (behind : UInt8 × UInt8) :
    (r.roundThen hangsUp behind).1.LiveOrClosed ↔ RoundFits behind r := by
  have hpacket := liveOrClosed_processPacket_iff (r := { r with firstPacket := false }) hr
    (r.receiveStream ++ [behind.1, behind.2])
  rw [roundThen, RoundFits]
  rcases r.round_cases behind with ⟨hno, ⟨b, hround⟩ | ⟨b, hround⟩⟩ | ⟨hhas, r', hproc, hround⟩ |
    ⟨hhas, r', hproc, hround⟩
  · rw [hround]
    exact iff_of_true hr fun h => absurd h hno
  · rw [hround]
    exact iff_of_true (liveOrClosed_close _) fun h => absurd h hno
  · rw [hproc] at hpacket
    rw [hround]
    exact ⟨fun h _ => hpacket.mp h, fun h => hpacket.mpr (h hhas)⟩
  · rw [hproc] at hpacket
    have hr' : r'.LiveOrClosed := by
      rw [LiveOrClosed, (sameLink_of_processPacket hproc).1]
      exact hr
    rw [hround]
    refine iff_of_true ?_ fun _ => hpacket.mp hr'
    show (if _ then _ else _ : Receiver × RoundEnd).1.LiveOrClosed
    split
    · exact liveOrClosed_close _
    · exact hr'

/-- A round that goes on leaves the connection as alive as it was. -/
theorem status_of_roundThen_again {r r' : Receiver} {behind : UInt8 × UInt8}
    (h : r.roundThen hangsUp behind = (r', .again)) : r'.status = r.status := by
  rw [roundThen] at h
  rcases r.round_cases behind with ⟨-, ⟨b, hround⟩ | ⟨b, hround⟩⟩ | ⟨-, mid, -, hround⟩ |
    ⟨-, mid, hproc, hround⟩
  · rw [hround] at h
    cases h
  · rw [hround] at h
    cases h
  · rw [hround] at h
    cases h
  · rw [hround] at h
    dsimp only at h
    split at h
    · cases h
    · obtain rfl := (Prod.mk.inj h).1
      exact (sameLink_of_processPacket hproc).1

/-- The loop ends live or closed exactly when all chunks fit. -/
theorem liveOrClosed_receiveLoopThen_iff (behind : UInt8 × UInt8) :
    ∀ (rounds : ℕ) (r : Receiver), r.LiveOrClosed →
    ((receiveLoopThen hangsUp behind rounds r).LiveOrClosed ↔
      EachRound hangsUp (RoundFits behind) behind rounds r) := by
  intro rounds
  induction rounds with
  | zero =>
    intro r hr
    exact iff_of_true hr trivial
  | succ rounds ih =>
    intro r hr
    have hround := liveOrClosed_roundThen_iff hangsUp hr behind
    rw [receiveLoopThen, EachRound, ← hround]
    rcases hthen : r.roundThen hangsUp behind with ⟨r', _ | _ | _⟩
    · have hr' : r'.LiveOrClosed := by
        rw [LiveOrClosed, status_of_roundThen_again hangsUp hthen]
        exact hr
      exact ⟨fun h => ⟨hr', (ih r' hr').mp h⟩, fun h => (ih r' hr').mpr h.2⟩
    · exact ⟨fun h => ⟨h, trivial⟩, fun h => h.1⟩
    · exact ⟨fun h => ⟨h, trivial⟩, fun h => h.1⟩

theorem liveOrClosed_reserve_iff {r : Receiver} {freed : ℕ → UInt8} :
    (r.reserve freed).LiveOrClosed ↔ r.LiveOrClosed := by
  unfold reserve
  split <;> rfl

/-- One event. -/
theorem liveOrClosed_stepThen_iff {r : Receiver} (e : Event) (hr : r.LiveOrClosed) :
    (r.stepThen hangsUp e).LiveOrClosed ↔ FittingEvent hangsUp r e := by
  unfold stepThen FittingEvent step
  cases hs : r.status with
  | failed fault => cases e <;> simp [hr]
  | connected =>
    cases e with
    | bytes bytes memory =>
      simp only [true_implies]
      rw [← liveOrClosed_receiveLoopThen_iff hangsUp memory.behind _ (r.markUsed bytes) hr]
      unfold receivedSomeBytesThen
      simp only
      split
      · exact liveOrClosed_reserve_iff
      · rfl
    | receiveError => exact iff_of_true (liveOrClosed_close r) trivial
    | close => exact iff_of_true (liveOrClosed_close r) trivial
    | connectComplete freed => exact iff_of_true hr trivial
  | stalled => exact absurd hs hr
  | closed =>
    cases e with
    | bytes bytes memory => simp [hr]
    | receiveError => exact iff_of_true hr trivial
    | close => exact iff_of_true hr trivial
    | connectComplete freed =>
      refine iff_of_true ?_ trivial
      simp only
      split
      · simp [LiveOrClosed]
      · exact hr

/-- **Live or closed.**  In a run of a new connection, whatever its callbacks do, it is live or
closed in every state if and only if every chunk that reaches the buffer of a sequence fits. -/
theorem always_liveOrClosed_iff (isOutgoing : Bool) (events : List Event) :
    Runs.Always (fun r e => some (stepThen hangsUp r e)) LiveOrClosed (create isOutgoing) events ↔
      Runs.Each (fun r e => some (stepThen hangsUp r e)) (FittingEvent hangsUp)
        (create isOutgoing) events := by
  refine Runs.always_iff_each (I := LiveOrClosed) (L := fun _ _ => True) (fun _ h => h)
    (fun r e hr _ hfits => ⟨_, rfl, (liveOrClosed_stepThen_iff hangsUp e hr).mpr hfits⟩)
    (fun r e r' hr _ hlarge hstep hlive => ?_) events _ ?_ ?_
  · obtain rfl := Option.some.inj hstep
    exact hlarge ((liveOrClosed_stepThen_iff hangsUp e hr).mp hlive)
  · simp [LiveOrClosed, create]
  · exact Runs.each_of_forall (fun _ _ => trivial) events _

end Callbacks

/-- A sequence is announced with no bytes, and its first packet has one. -/
theorem not_always_liveOrClosed_largeChunk :
    ¬ Runs.Always (fun r e => some (stepThen (fun _ => false) r e)) LiveOrClosed (create true)
      [.bytes [0x09, 0x00, 0x08, 0x10, 0x18, 0x00, 0x25, 0x04, 0x07] .zeros] := by
  decide

-- the same behind a packet of three bytes, whose header ends in the length of the next
example : ¬ Runs.Always (fun r e => some (stepThen (fun _ => false) r e)) LiveOrClosed (create true)
    [.bytes ([0x03, 0x00, 0x08] ++ [0x64, 0x04, 0x08, 0x10, 0x18, 0x00, 0x25, 0x04]
      ++ List.replicate 1116 0) .zeros] := by
  decide +kernel

end Receiver

end Network
