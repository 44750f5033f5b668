/-
# The next connection

`close` empties an outgoing connection, which then connects again.  It clears the buffer of an
unfinished sequence, but keeps the ids of that sequence.  With them the next connection refuses
a packet that starts a sequence, and copies the body of one that goes on with the old sequence
to the cleared buffer, which has room but no memory.

Two connections are `Alike` when they differ at most in the buffer of a sequence that is not
going on.  Alike connections stay alike (`Alike.step`), so a connection that was closed between
two sequences behaves as a new one.
-/
import Hub.NetworkReceiver

namespace Network

namespace Receiver

/-! ## Connections that are alike -/

/-- The connection with another buffer for sequences. -/
def withBuffer (r : Receiver) (b : ChunkBuffer) : Receiver := { r with chunkedMessageBuffer := b }

/-- The connections differ at most in the buffer, and only when no sequence is going on. -/
def Alike (r s : Receiver) : Prop :=
  ∃ b, s = r.withBuffer b ∧ (r.chunkedServiceId = -1 ∨ b = r.chunkedMessageBuffer)

/-- The results of a packet are alike. -/
def AlikeResults (x y : Receiver × Bool) : Prop := Alike x.1 y.1 ∧ x.2 = y.2

theorem Alike.refl (r : Receiver) : Alike r r := ⟨r.chunkedMessageBuffer, rfl, .inr rfl⟩

theorem AlikeResults.refl (x : Receiver × Bool) : AlikeResults x x := ⟨Alike.refl x.1, rfl⟩

section Alike

variable {r s : Receiver}

theorem Alike.fail (h : Alike r s) (fault : Fault) : Alike (r.fail fault) (s.fail fault) := by
  obtain ⟨b, rfl, hb⟩ := h
  exact ⟨b, rfl, hb⟩

theorem Alike.status (h : Alike r s) : s.status = r.status := by
  obtain ⟨b, rfl, -⟩ := h
  rfl

theorem Alike.close (h : Alike r s) : Alike r.close s.close := by
  obtain ⟨b, rfl, hb⟩ := h
  unfold Receiver.close
  by_cases hout : r.isOutgoing = true
  · rw [if_pos hout, if_pos (show (r.withBuffer b).isOutgoing = true from hout)]
    exact ⟨b.clear, rfl, hb.imp_right fun heq => by rw [heq]⟩
  · rw [if_neg hout, if_neg (show ¬ (r.withBuffer b).isOutgoing = true from hout)]
    exact ⟨b, rfl, hb⟩

theorem Alike.deliver (h : Alike r s) (d : Delivery) (header : PacketHeader) :
    AlikeResults (r.deliver d header) (s.deliver d header) := by
  unfold Receiver.deliver
  split
  · exact ⟨h.fail _, rfl⟩
  · obtain ⟨b, rfl, hb⟩ := h
    exact ⟨⟨b, rfl, hb⟩, rfl⟩

/-- A packet of a sequence is refused by both, or it makes the buffers the same. -/
theorem Alike.processChunk (h : Alike r s) (data : List UInt8) {header : PacketHeader}
    (last : Bool) (hservice : header.serviceId ≠ -1) :
    AlikeResults (r.processChunk data header last) (s.processChunk data header last) := by
  have hrefuses : s.Refuses header ↔ r.Refuses header := by
    obtain ⟨b, rfl, -⟩ := h
    exact Iff.rfl
  unfold Receiver.processChunk
  by_cases hrefuse : r.Refuses header
  · rw [if_pos hrefuse, if_pos (hrefuses.mpr hrefuse)]
    exact ⟨h.close, rfl⟩
  rw [if_neg hrefuse, if_neg (fun hs => hrefuse (hrefuses.mp hs))]
  split
  · exact ⟨h.fail _, rfl⟩
  · have hstart : s.startSequence header = r.startSequence header := by
      obtain ⟨b, rfl, hb⟩ := h
      unfold startSequence
      by_cases hsize : header.sequenceSize ≠ -1
      · rw [if_pos hsize, if_pos hsize]
        rfl
      · -- the sequence is going on, with the service of the packet
        rw [if_neg hsize, if_neg hsize]
        rw [Refuses, if_neg hsize, not_or, not_not, not_not] at hrefuse
        rcases hb with hnone | rfl
        · exact absurd (hrefuse.2.symm.trans hnone) hservice
        · rfl
    rw [hstart]
    exact AlikeResults.refl _

theorem Alike.processPacket (h : Alike r s) (data : List UInt8) :
    AlikeResults (r.processPacket data) (s.processPacket data) := by
  unfold Receiver.processPacket
  split
  · exact ⟨h.fail _, rfl⟩
  · exact ⟨h.close, rfl⟩
  · rename_i header _
    unfold processHeader
    by_cases hservice : header.serviceId = -1
    · rw [if_pos hservice, if_pos hservice]
      exact ⟨h.close, rfl⟩
    rw [if_neg hservice, if_neg hservice]
    split
    · obtain ⟨b, rfl, hb⟩ := h
      exact ⟨⟨b, rfl, hb⟩, rfl⟩
    · split
      · exact h.deliver _ header
      · exact h.processChunk data _ hservice

theorem Alike.receivePacket (h : Alike r s) (behind : UInt8 × UInt8) :
    Alike (r.receivePacket behind).1 (s.receivePacket behind).1 ∧
      (r.receivePacket behind).2 = (s.receivePacket behind).2 := by
  have hstream : s.receiveStream = r.receiveStream := by
    obtain ⟨b, rfl, -⟩ := h
    rfl
  unfold Receiver.receivePacket
  rw [hstream]
  split
  · exact ⟨h.close, rfl⟩
  split
  · exact ⟨h, rfl⟩
  obtain ⟨hstate, hok⟩ := h.processPacket (r.receiveStream ++ [behind.1, behind.2])
  rcases hr : r.processPacket (r.receiveStream ++ [behind.1, behind.2]) with ⟨r', ok⟩
  rcases hs : s.processPacket (r.receiveStream ++ [behind.1, behind.2]) with ⟨s', ok'⟩
  rw [hr, hs] at hstate hok
  obtain rfl : ok = ok' := hok
  cases ok with
  | false => exact ⟨hstate, rfl⟩
  | true =>
    obtain ⟨b, rfl, hb⟩ := hstate
    exact ⟨⟨b, rfl, hb⟩, rfl⟩

theorem Alike.round (h : Alike r s) (behind : UInt8 × UInt8) :
    Alike (r.round behind).1 (s.round behind).1 ∧
      (r.round behind).2 = (s.round behind).2 := by
  have hfirst : Alike { r with firstPacket := false } { s with firstPacket := false } := by
    obtain ⟨b, rfl, hb⟩ := h
    exact ⟨b, rfl, hb⟩
  have hstream : s.receiveStream = r.receiveStream ∧ s.firstPacket = r.firstPacket := by
    obtain ⟨b, rfl, -⟩ := h
    exact ⟨rfl, rfl⟩
  unfold Receiver.round
  by_cases hshort : r.receiveStream.length < 4
  · rw [if_pos hshort, if_pos (by rwa [hstream.1])]
    exact ⟨h, rfl⟩
  have hshort' : ¬ s.receiveStream.length < 4 := by rwa [hstream.1]
  rw [if_neg hshort, if_neg hshort']
  by_cases hwrong : r.firstPacket ∧ r.receiveStream.getD 2 0 ≠ 8
  · rw [if_pos hwrong, if_pos (by rwa [hstream.1, hstream.2])]
    exact ⟨hfirst.close, rfl⟩
  · have hwrong' : ¬ (s.firstPacket = true ∧ s.receiveStream.getD 2 0 ≠ 8) := by
      rwa [hstream.1, hstream.2]
    rw [if_neg hwrong, if_neg hwrong']
    exact hfirst.receivePacket behind

theorem Alike.receiveLoop (behind : UInt8 × UInt8) : ∀ {rounds : ℕ} {r s : Receiver},
    Alike r s → Alike (receiveLoop behind rounds r) (receiveLoop behind rounds s) := by
  intro rounds
  induction rounds with
  | zero =>
    intro r s h
    exact h
  | succ rounds ih =>
    intro r s h
    obtain ⟨hstate, hend⟩ := h.round behind
    rw [Receiver.receiveLoop, Receiver.receiveLoop]
    rcases hr : r.round behind with ⟨r', e⟩
    rcases hs : s.round behind with ⟨s', e'⟩
    rw [hr, hs] at hstate hend
    obtain rfl : e = e' := hend
    cases e with
    | again => exact ih hstate
    | needMore => exact hstate
    | stop => exact hstate

theorem Alike.reserve (h : Alike r s) (freed : ℕ → UInt8) :
    Alike (r.reserve freed) (s.reserve freed) := by
  obtain ⟨b, rfl, hb⟩ := h
  unfold Receiver.reserve
  by_cases hroom : r.receivePool.capacity < maxMessageSize
  · rw [if_pos hroom, if_pos (show (r.withBuffer b).receivePool.capacity < _ from hroom)]
    exact ⟨b, rfl, hb⟩
  · rw [if_neg hroom, if_neg (show ¬ (r.withBuffer b).receivePool.capacity < _ from hroom)]
    exact ⟨b, rfl, hb⟩

theorem Alike.receivedSomeBytes (h : Alike r s) (bytes : List UInt8) (memory : Memory) :
    Alike (r.receivedSomeBytes bytes memory) (s.receivedSomeBytes bytes memory) := by
  have hmarked : Alike (r.markUsed bytes) (s.markUsed bytes) := by
    obtain ⟨b, rfl, hb⟩ := h
    exact ⟨b, rfl, hb⟩
  have hstream : s.receiveStream = r.receiveStream := by
    obtain ⟨b, rfl, -⟩ := h
    rfl
  have hloop : Alike
      (Receiver.receiveLoop memory.behind (r.receiveStream ++ bytes).length (r.markUsed bytes))
      (Receiver.receiveLoop memory.behind (r.receiveStream ++ bytes).length (s.markUsed bytes)) :=
    Alike.receiveLoop memory.behind hmarked
  have hstatus := hloop.status
  unfold Receiver.receivedSomeBytes
  simp only [hstream, hstatus]
  split
  · exact hloop.reserve memory.freed
  · exact hloop

/-- **Alike connections stay alike**, whatever happens to them. -/
theorem Alike.step (h : Alike r s) (e : Event) : Alike (r.step e) (s.step e) := by
  have hsame : s.status = r.status ∧ s.isOutgoing = r.isOutgoing := by
    obtain ⟨b, rfl, -⟩ := h
    exact ⟨rfl, rfl⟩
  have hconnect : ∀ freed, Alike { r.reserve freed with status := .connected }
      { s.reserve freed with status := .connected } := by
    intro freed
    obtain ⟨b, hb, hids⟩ := h.reserve freed
    exact ⟨b, by rw [hb]; rfl, hids⟩
  unfold Receiver.step
  rw [hsame.1]
  cases r.status with
  | failed fault => exact h
  | connected =>
    cases e with
    | bytes bytes memory => exact h.receivedSomeBytes bytes memory
    | receiveError =>
      obtain ⟨b, hs, hb⟩ := h.close
      exact ⟨b, by show { s.close with firstPacket := true } = _; rw [hs]; rfl, hb⟩
    | close => exact h.close
    | connectComplete freed => exact h
  | stalled =>
    cases e with
    | bytes bytes memory => exact h
    | receiveError => exact h
    | close => exact h.close
    | connectComplete freed => exact hconnect freed
  | closed =>
    cases e with
    | bytes bytes memory => exact h
    | receiveError => exact h
    | close => exact h
    | connectComplete freed =>
      by_cases hout : r.isOutgoing = true
      · simp only [if_pos hout, if_pos (hsame.2.trans hout)]
        exact hconnect freed
      · simp only [if_neg hout, if_neg (show ¬ s.isOutgoing = true by rwa [hsame.2])]
        exact h

end Alike

/-- The connection behind a list of events. -/
def after (r : Receiver) (events : List Event) : Receiver := events.foldl step r

theorem Alike.after : ∀ {events : List Event} {r s : Receiver}, Alike r s →
    Alike (r.after events) (s.after events) := by
  intro events
  induction events with
  | nil =>
    intro r s h
    exact h
  | cons e events ih =>
    intro r s h
    exact ih (h.step e)

/-! ## A clean slate -/

/-- The packet at `data` is part of a sequence. -/
def ChunkPacket (data : List UInt8) (h : PacketHeader) (last : Bool) : Prop :=
  readHeader data = .complete h ∧ h.serviceId ≠ -1 ∧ h.serviceId ≠ systemServiceId ∧
    h.lastInSequence = some last

theorem processPacket_of_chunk {r : Receiver} {data : List UInt8} {h : PacketHeader}
    {last : Bool} (hdata : ChunkPacket data h last) :
    r.processPacket data = r.processChunk data h last := by
  obtain ⟨hread, hservice, hsystem, hlast⟩ := hdata
  rw [processPacket, hread]
  show r.processHeader data h = _
  rw [processHeader, if_neg hservice, if_neg hsystem, hlast]

/-- The connection that `close` and `onConnectComplete` make of a connection.  `close` has left
nothing to copy. -/
def nextConnection (r : Receiver) : Receiver := r.close.step (.connectComplete fun _ => 0)

/-- The connection with what a new one has for a sequence. -/
def asNew (r : Receiver) : Receiver :=
  { r with
    chunkedMessageBuffer := (create r.isOutgoing).chunkedMessageBuffer
    chunkedServiceId := (create r.isOutgoing).chunkedServiceId
    chunkedMessageId := (create r.isOutgoing).chunkedMessageId }

/-- What there is to see of a connection: whether it is alive, the messages that were delivered,
and the answers to a ping. -/
def observe (r : Receiver) : Status × List Delivery × ℕ := (r.status, r.delivered, r.pongs)

/-- A packet that starts a sequence is accepted; one that goes on with a sequence closes the
connection, and nothing is copied; and all that can be seen later is what can be seen of a new
connection. -/
structure CleanSlate (r : Receiver) : Prop where
  starts : ∀ data h last, ChunkPacket data h last → h.sequenceSize ≠ -1 → 0 ≤ h.sequenceSize →
    r.processPacket data = (r.startSequence h).appendChunk data h last
  rejects : ∀ data h last, ChunkPacket data h last → h.sequenceSize = -1 →
    r.processPacket data = (r.close, false)
  behavesAsNew : ∀ events, observe (r.after events) = observe (r.asNew.after events)

/-- No sequence is unfinished. -/
def SequenceFinished (r : Receiver) : Prop := r.chunkedMessageId = -1 ∧ r.chunkedServiceId = -1

instance (r : Receiver) : Decidable r.SequenceFinished :=
  inferInstanceAs (Decidable (r.chunkedMessageId = -1 ∧ r.chunkedServiceId = -1))

theorem SequenceFinished.cleanSlate {r : Receiver} (h : r.SequenceFinished) : r.CleanSlate where
  starts data header last hdata hsize hpos := by
    have hrefuse : ¬ r.Refuses header := by
      rw [Refuses, if_pos hsize]
      exact fun hids => hids.elim (absurd h.1) (absurd h.2)
    rw [processPacket_of_chunk hdata, processChunk, if_neg hrefuse,
      if_neg (fun hneg => hneg.2 hpos)]
  rejects data header last hdata hsize := by
    have hrefuse : r.Refuses header := by
      rw [Refuses, if_neg (not_not.mpr hsize)]
      refine .inr fun heq => hdata.2.1 ?_
      rw [← heq, h.2]
    rw [processPacket_of_chunk hdata, processChunk, if_pos hrefuse]
  behavesAsNew events := by
    have halike : Alike r r.asNew := by
      refine ⟨(create r.isOutgoing).chunkedMessageBuffer, ?_, .inl h.2⟩
      show _ = { r with chunkedMessageBuffer := _ }
      rw [asNew]
      congr 1
      · exact h.2.symm
      · exact h.1.symm
    have hafter : Alike (r.after events) (r.asNew.after events) := halike.after
    obtain ⟨b, hb, -⟩ := hafter
    rw [hb]
    rfl

/-- The first packet of a sequence of two bytes. -/
def startPacket : List UInt8 := [0x09, 0x00, 0x08, 0x10, 0x18, 0x02, 0x25, 0x04, 0x07]

/-- Its header. -/
def startHeader : PacketHeader where
  headerSize := 6
  serviceId := 16
  lastInSequence := some false
  sequenceSize := 2

theorem chunkPacket_startPacket : ChunkPacket startPacket startHeader false :=
  ⟨rfl, by decide, by decide, rfl⟩

/-- A connection with an unfinished sequence refuses it. -/
theorem not_cleanSlate_of_unfinished {r : Receiver} (h : ¬ r.SequenceFinished) :
    ¬ r.CleanSlate := by
  intro hclean
  have hrefuse : r.Refuses startHeader := by
    rw [Refuses, if_pos (by decide)]
    exact not_and_or.mp h
  have hstarts := hclean.starts startPacket startHeader false chunkPacket_startPacket
    (by decide) (by decide)
  rw [processPacket_of_chunk chunkPacket_startPacket, processChunk, if_pos hrefuse] at hstarts
  have htaken : ((r.startSequence startHeader).appendChunk startPacket startHeader false).2
      = true := rfl
  rw [← hstarts] at htaken
  cases htaken

theorem sequenceFinished_nextConnection {r : Receiver} (hout : r.isOutgoing = true) :
    r.nextConnection.SequenceFinished ↔ r.SequenceFinished := by
  have hclose : r.close = { r with
      receiveStream := []
      receivePool := .empty
      chunkedMessageBuffer := r.chunkedMessageBuffer.clear
      status := .closed } := if_pos hout
  rw [nextConnection, hclose]
  show ((if r.isOutgoing then _ else _ : Receiver)).SequenceFinished ↔ _
  rw [if_pos hout]
  rfl

/-! ## Every run -/

section Outgoing

variable (r : Receiver)

theorem isOutgoing_close : r.close.isOutgoing = r.isOutgoing := by
  unfold close
  split <;> rfl

theorem isOutgoing_deliver (d : Delivery) (h : PacketHeader) :
    (r.deliver d h).1.isOutgoing = r.isOutgoing := by
  unfold deliver
  split <;> rfl

theorem isOutgoing_appendChunk (data : List UInt8) (h : PacketHeader) (last : Bool) :
    (r.appendChunk data h last).1.isOutgoing = r.isOutgoing := by
  unfold appendChunk
  split
  · rfl
  · split
    · split
      · rfl
      · split
        · exact isOutgoing_deliver _ _ h
        · rfl
    · rfl

theorem isOutgoing_processHeader (data : List UInt8) (h : PacketHeader) :
    (r.processHeader data h).1.isOutgoing = r.isOutgoing := by
  unfold processHeader processSingle processChunk
  split
  · exact r.isOutgoing_close
  split
  · rfl
  split
  · exact r.isOutgoing_deliver _ h
  · split
    · exact r.isOutgoing_close
    · split
      · rfl
      · rw [isOutgoing_appendChunk, startSequence]
        split <;> rfl

theorem isOutgoing_processPacket (data : List UInt8) :
    (r.processPacket data).1.isOutgoing = r.isOutgoing := by
  unfold processPacket
  split
  · rfl
  · exact r.isOutgoing_close
  · exact r.isOutgoing_processHeader data _

theorem isOutgoing_round (behind : UInt8 × UInt8) :
    (r.round behind).1.isOutgoing = r.isOutgoing := by
  have hpacket := { r with firstPacket := false }.isOutgoing_processPacket
    (r.receiveStream ++ [behind.1, behind.2])
  rcases r.round_cases behind with ⟨-, ⟨b, hround⟩ | ⟨b, hround⟩⟩ | ⟨-, r', hproc, hround⟩ |
    ⟨-, r', hproc, hround⟩
  · rw [hround]
  · rw [hround]
    exact isOutgoing_close _
  · rw [hround]
    rwa [hproc] at hpacket
  · rw [hround]
    rwa [hproc] at hpacket

theorem isOutgoing_receiveLoop (behind : UInt8 × UInt8) : ∀ (rounds : ℕ) (r : Receiver),
    (receiveLoop behind rounds r).isOutgoing = r.isOutgoing := by
  intro rounds
  induction rounds with
  | zero =>
    intro r
    rfl
  | succ rounds ih =>
    intro r
    have hround := r.isOutgoing_round behind
    rw [receiveLoop]
    split
    · rename_i r' heq
      rw [heq] at hround
      rw [ih, hround]
    · rename_i r' e _ heq
      rwa [heq] at hround

theorem isOutgoing_reserve (freed : ℕ → UInt8) :
    (r.reserve freed).isOutgoing = r.isOutgoing := by
  unfold reserve
  split <;> rfl

theorem isOutgoing_receivedSomeBytes (bytes : List UInt8) (memory : Memory) :
    (r.receivedSomeBytes bytes memory).isOutgoing = r.isOutgoing := by
  unfold receivedSomeBytes
  simp only
  split
  · rw [isOutgoing_reserve, isOutgoing_receiveLoop]
    rfl
  · exact isOutgoing_receiveLoop memory.behind _ _

theorem isOutgoing_step (e : Event) : (r.step e).isOutgoing = r.isOutgoing := by
  unfold step
  split
  · rfl
  · cases e with
    | bytes bytes memory => exact r.isOutgoing_receivedSomeBytes bytes memory
    | receiveError => exact r.isOutgoing_close
    | close => exact r.isOutgoing_close
    | connectComplete freed => rfl
  · cases e with
    | bytes bytes memory => rfl
    | receiveError => rfl
    | close => exact r.isOutgoing_close
    | connectComplete freed => exact r.isOutgoing_reserve freed
  · cases e with
    | bytes bytes memory => rfl
    | receiveError => rfl
    | close => rfl
    | connectComplete freed =>
      simp only
      split
      · exact r.isOutgoing_reserve freed
      · rfl

theorem isOutgoing_after : ∀ (events : List Event) (r : Receiver),
    (r.after events).isOutgoing = r.isOutgoing := by
  intro events
  induction events with
  | nil =>
    intro r
    rfl
  | cons e events ih =>
    intro r
    show ((r.step e).after events).isOutgoing = _
    rw [ih, isOutgoing_step]

end Outgoing

/-- **A clean slate after `close`.**  The next connection of an outgoing one has it exactly when
no sequence was unfinished. -/
theorem cleanSlate_iff_sequenceFinished (events : List Event) :
    ((create true).after events).nextConnection.CleanSlate ↔
      ((create true).after events).SequenceFinished := by
  have hout : ((create true).after events).isOutgoing = true := isOutgoing_after events _
  rw [← sequenceFinished_nextConnection hout]
  refine ⟨fun hclean => ?_, SequenceFinished.cleanSlate⟩
  by_contra hunfinished
  exact not_cleanSlate_of_unfinished hunfinished hclean

/-- A packet that goes on with the sequence, and ends it. -/
def endPacket : List UInt8 := [0x07, 0x00, 0x08, 0x10, 0x24, 0x04, 0x08]

/-- Closed inside a sequence, the connection refuses the same sequence on the next connection,
and copies a packet that goes on with it to a buffer without memory. -/
theorem not_cleanSlate_insideSequence :
    ¬ ((create true).after [.bytes startPacket .zeros]).nextConnection.CleanSlate ∧
      (((create true).after [.bytes startPacket .zeros]).nextConnection.after
        [.bytes startPacket .zeros]).status = .closed ∧
      (((create true).after [.bytes startPacket .zeros]).nextConnection.after
        [.bytes endPacket .zeros]).status = .failed .nullPointer := by
  refine ⟨fun hclean => ?_, by decide +kernel, by decide +kernel⟩
  refine not_cleanSlate_of_unfinished ?_ hclean
  decide +kernel

end Receiver

end Network
