/-
# Recovery from a failed write

When a write fails, `sentSomeBytes` sets the two byte counters to zero and connects again; the
lists stay as they are.  The next round starts with the first message of the queue, and its
headers go behind those of the write that failed.  The next write that succeeds is then taken for
one of the old priority messages and old headers, of which it has none.

`History` keeps, next to the connection, what was queued and what was written.  A run in which
writes fail only while neither a priority message nor a generated header is outstanding recovers
(`recovered_of_careful`).
-/
import Mathlib
import Hub.NetworkSender
import Hub.Runs

namespace Network

namespace Sender

/-! ## A connection and its history -/

/-- The sending half of a connection; the messages that were put in the two queues, those whose
last byte was in a write that succeeded, and whether a write has failed since the last one that
succeeded. -/
structure History where
  sender : Sender
  queuedPriority : List Message
  queuedNormal : List Message
  writtenPriority : List Message
  writtenNormal : List Message
  recovering : Bool

/-- A message is queued, `runMessageQueue` is called (as `onConnectComplete` does after a
reconnect), and the write that goes on succeeds or fails. -/
inductive WriteEvent where
  | queueMessage (m : Message) (priority : MessagePriority)
  | runMessageQueue
  | writeDone
  | writeFailed

namespace History

/-- A new connection. -/
def create : History where
  sender := Sender.create
  queuedPriority := []
  queuedNormal := []
  writtenPriority := []
  writtenNormal := []
  recovering := false

/-- A message is queued. -/
def queueMessage (l : History) (m : Message) (priority : MessagePriority) : History :=
  if Accepts m priority then
    match priority with
    | .normalPriority => { l with
        sender := l.sender.queueMessage m .normalPriority
        queuedNormal := l.queuedNormal ++ [m] }
    | .highPriority => { l with
        sender := l.sender.queueMessage m .highPriority
        queuedPriority := l.queuedPriority ++ [m] }
  else { l with sender := l.sender.queueMessage m priority }

/-- One event; `none` is a failed assertion. -/
def step (grow : ℕ → ℕ) (l : History) : WriteEvent → Option History
  | .queueMessage m priority => some (l.queueMessage m priority)
  | .runMessageQueue => (l.sender.runMessageQueue grow).map fun s => { l with sender := s }
  | .writeDone =>
      match l.sender.inFlight with
      | none => some l
      | some handed => (l.sender.sentSomeBytes handed.bytes.length).map fun s => { l with
          sender := s
          writtenPriority := l.writtenPriority ++ handed.priority
          writtenNormal := l.writtenNormal ++ handed.finished
          recovering := false }
  | .writeFailed =>
      match l.sender.inFlight with
      | none => some l
      | some _ => some { l with sender := l.sender.sentError, recovering := true }

/-- The lists are consistent: the headers are those of the packets of queued messages that were
handed to the socket; every priority message that was queued is written or still to be sent, and
every other message is written or still queued, not both. -/
structure Recovered (l : History) : Prop where
  headers : l.sender.sentPriorityMessages = [] ∧
    ∃ k, AtPacket l.sender.messageQueue k l.sender.messageBytesSend ∧
      l.sender.sendQHeaders
        = ((l.sender.messageQueue.flatMap packets).take k).flatMap Packet.headers
  priority : l.queuedPriority = l.writtenPriority ++ l.sender.priorityMessageQueue
  normal : l.queuedNormal = l.writtenNormal ++ l.sender.messageQueue

/-- The number of chunks of a message that is queued comes out right in single precision, a write
does not overflow the counter of bytes, and a write fails only while no priority message and no
generated header is outstanding. -/
def Careful (l : History) : WriteEvent → Prop
  | .queueMessage m priority => Accepts m priority → ExactCount m
  | .runMessageQueue => True
  | .writeDone => ∀ handed ∈ l.sender.inFlight,
      l.sender.messageBytesSent + handed.bytes.length < 2 ^ 31
  | .writeFailed => l.sender.inFlight.isSome →
      l.sender.sentPriorityMessages = [] ∧ l.sender.sendQHeaders = []

instance decidableCareful (l : History) : ∀ e, Decidable (l.Careful e)
  | .queueMessage m priority => inferInstanceAs (Decidable (Accepts m priority → ExactCount m))
  | .runMessageQueue => .isTrue trivial
  | .writeDone => inferInstanceAs (Decidable (∀ handed ∈ l.sender.inFlight,
      l.sender.messageBytesSent + handed.bytes.length < 2 ^ 31))
  | .writeFailed => inferInstanceAs (Decidable (l.sender.inFlight.isSome →
      l.sender.sentPriorityMessages = [] ∧ l.sender.sendQHeaders = []))

/-! ## The invariant -/

/-- Between two writes: the first `k` packets of the queue are written, one header of each is
kept, and the counter of bytes is theirs. -/
def Idle (l : History) : Prop :=
  l.sender.sentPriorityMessages = [] ∧
    l.queuedPriority = l.writtenPriority ++ l.sender.priorityMessageQueue ∧
    l.queuedNormal = l.writtenNormal ++ l.sender.messageQueue ∧
    ∃ k, AtPacket l.sender.messageQueue k l.sender.messageBytesSend ∧
      l.sender.sendQHeaders.length = k ∧
      l.sender.messageBytesSent
        = (totalLength l.sender.sendQHeaders + l.sender.messageBytesSend : ℕ) ∧
      (l.recovering = true → k = 0)

/-- During a write: it completes the priority messages that were taken off their queue and the
first messages of the other queue, and sends the first `k` packets of what is left. -/
def Writing (l : History) (handed : Handed) : Prop :=
  l.sender.sentPriorityMessages = handed.priority ∧
    l.queuedPriority
      = l.writtenPriority ++ handed.priority ++ l.sender.priorityMessageQueue ∧
    l.queuedNormal = l.writtenNormal ++ l.sender.messageQueue ∧
    ∃ left k, l.sender.messageQueue = handed.finished ++ left ∧
      AtPacket left k l.sender.messageBytesSend ∧
      l.sender.sendQHeaders.length = headerCount (handed.priority ++ handed.finished) + k ∧
      l.sender.messageBytesSent + handed.bytes.length
        = (totalLength l.sender.sendQHeaders + bodyBytes (handed.priority ++ handed.finished)
          + l.sender.messageBytesSend : ℕ) ∧
      (handed.priority ++ handed.finished ≠ [] ∨ 0 < k) ∧
      (∀ m ∈ handed.priority ++ handed.finished, Counted m) ∧
      (l.recovering = true → l.sender.sendQHeaders
        = ((handed.priority ++ handed.finished).flatMap packets
            ++ (left.flatMap packets).take k).flatMap Packet.headers)

/-- What holds in every state of a careful run. -/
structure Kept (l : History) : Prop where
  exact : ∀ m ∈ l.sender.messageQueue, ExactCount m
  small : ∀ m ∈ l.sender.priorityMessageQueue, ¬ m.size > chunkSize
  positive : ∀ x ∈ l.sender.sendQHeaders, 0 < x.length
  idle : l.sender.inFlight = none → l.Idle
  writing : ∀ handed ∈ l.sender.inFlight, l.Writing handed

theorem kept_create : create.Kept where
  exact := by simp [create, Sender.create]
  small := by simp [create, Sender.create]
  positive := by simp [create, Sender.create]
  idle := fun _ => ⟨rfl, rfl, rfl, 0, AtPacket.zero, rfl, rfl, fun _ => rfl⟩
  writing := by simp [create, Sender.create]

/-! ### A message is queued -/

theorem atPacket_append {queue : List Message} {k bytesSend : ℕ}
    (h : AtPacket queue k bytesSend) (more : List Message) :
    AtPacket (queue ++ more) k bytesSend := by
  rcases h with h0 | ⟨m, ms, rfl, hrest⟩
  · exact .inl h0
  · exact .inr ⟨m, ms ++ more, rfl, hrest⟩

/-- Messages at the end of the queue do not change its first packets. -/
theorem take_packets_concat {queue : List Message} {k bytesSend : ℕ}
    (h : AtPacket queue k bytesSend) (more : List Message) :
    ((queue ++ more).flatMap packets).take k = (queue.flatMap packets).take k := by
  rw [List.flatMap_append]
  rcases h with ⟨rfl, -⟩ | ⟨m, ms, rfl, hlarge, -, hlt, -⟩
  · rw [List.take_zero, List.take_zero]
  · apply List.take_append_of_le_length
    rw [List.flatMap_cons, List.length_append, packets_of_large hlarge, List.length_map,
      List.length_range]
    omega

theorem Kept.queueMessage {l : History} (h : l.Kept) {m : Message} {priority : MessagePriority}
    (hm : Accepts m priority → ExactCount m) : (l.queueMessage m priority).Kept := by
  unfold History.queueMessage Sender.queueMessage
  by_cases haccepts : Accepts m priority
  · cases priority with
    | normalPriority =>
      simp only [if_pos haccepts]
      refine ⟨fun x hx => ?_, h.small, h.positive, fun hno => ?_, fun handed hin => ?_⟩
      · rcases List.mem_append.mp hx with hx | hx
        · exact h.exact x hx
        · rw [List.mem_singleton.mp hx]
          exact hm haccepts
      · obtain ⟨hsp, hpri, hnormal, k, hat, hrest⟩ := h.idle hno
        refine ⟨hsp, hpri, ?_, k, atPacket_append hat [m], hrest⟩
        show l.queuedNormal ++ [m] = l.writtenNormal ++ (l.sender.messageQueue ++ [m])
        rw [hnormal, List.append_assoc]
      · obtain ⟨hsp, hpri, hnormal, left, k, hqueue, hat, hlen, hbytes, hsome, hcounted, hexact⟩ :=
          h.writing handed hin
        refine ⟨hsp, hpri, ?_, left ++ [m], k, ?_, atPacket_append hat [m], hlen, hbytes, hsome,
          hcounted, fun hrec => ?_⟩
        · show l.queuedNormal ++ [m] = l.writtenNormal ++ (l.sender.messageQueue ++ [m])
          rw [hnormal, List.append_assoc]
        · show l.sender.messageQueue ++ [m] = _
          rw [hqueue, List.append_assoc]
        · rw [take_packets_concat hat]
          exact hexact hrec
    | highPriority =>
      simp only [if_pos haccepts]
      refine ⟨h.exact, fun x hx => ?_, h.positive, fun hno => ?_, fun handed hin => ?_⟩
      · rcases List.mem_append.mp hx with hx | hx
        · exact h.small x hx
        · rw [List.mem_singleton.mp hx]
          exact fun hlarge => haccepts.2.2 ⟨rfl, hlarge⟩
      · obtain ⟨hsp, hpri, hrest⟩ := h.idle hno
        refine ⟨hsp, ?_, hrest⟩
        show l.queuedPriority ++ [m]
          = l.writtenPriority ++ (l.sender.priorityMessageQueue ++ [m])
        rw [hpri, List.append_assoc]
      · obtain ⟨hsp, hpri, hrest⟩ := h.writing handed hin
        refine ⟨hsp, ?_, hrest⟩
        show l.queuedPriority ++ [m]
          = l.writtenPriority ++ handed.priority ++ (l.sender.priorityMessageQueue ++ [m])
        rw [hpri, List.append_assoc, List.append_assoc]
  · simp only [if_neg haccepts]
    exact h

/-! ### A round -/

/-- **A round** hands over the next packets, and the books say so. -/
theorem Kept.runMessageQueue {grow : ℕ → ℕ} {l : History} {s : Sender} (h : l.Kept)
    (hrun : l.sender.runMessageQueue grow = some s) : Kept { l with sender := s } := by
  obtain rfl | ⟨hnone, hstart, sentPriority, leftPriority, mid, finished, bytesSend, r, hpriority,
    hmessages, rfl⟩ := Sender.runMessageQueue_cases hrun
  · exact h
  obtain ⟨hsp, hpri, hnormal, k, hat, hlen, hbytes, hrec⟩ := h.idle hnone
  obtain ⟨hsplit, hext, hsome, -⟩ := priorityLoop_spec h.small hpriority
  obtain ⟨left, k', sent, hqueue, hat', hext', hpackets, -, hsome', hown⟩ :=
    messageLoop_spec hat hmessages
  have hall := hext.trans hext'
  have hsmall : ∀ m ∈ sentPriority, ¬ m.size > chunkSize := fun m hm =>
    h.small m (hsplit ▸ List.mem_append_left _ hm)
  -- the headers and bodies of the packets, counted in both ways
  have hheaders := congrArg (fun ps => (ps.flatMap Packet.headers).length) hpackets
  have hbodies := congrArg bodySum hpackets
  simp only [List.flatMap_append, List.length_append, bodySum_append, length_flatMap_headers,
    (take_flatMap_packets hat).2, (take_flatMap_packets hat').2, (take_flatMap_packets hat).1,
    (take_flatMap_packets hat').1, bodySum_flatMap hown] at hheaders hbodies
  have hpriBodies : bodySum (sentPriority.flatMap packets) = bodyBytes sentPriority :=
    bodySum_flatMap fun m hm hlarge => absurd hlarge (hsmall m hm)
  have hqueueHeaders : r.sendQHeaders = l.sender.sendQHeaders
      ++ (sentPriority.flatMap packets ++ sent).flatMap Packet.headers := hall.headers
  have hsocket : r.socketQueue.flatten
      = (sentPriority.flatMap packets ++ sent).flatMap Packet.bytes := by simpa using hall.socket
  have hcount : headerCount (sentPriority ++ finished)
      = headerCount sentPriority + headerCount finished := by simp [headerCount]
  have hbody : bodyBytes (sentPriority ++ finished)
      = bodyBytes sentPriority + bodyBytes finished := by simp [bodyBytes]
  refine ⟨h.exact, fun m hm => h.small m (hsplit ▸ List.mem_append_right _ hm), ?_, ?_, ?_⟩
  · intro x hx
    rw [hqueueHeaders] at hx
    rcases List.mem_append.mp hx with hx | hx
    · exact h.positive x hx
    · obtain ⟨p, hp, hx⟩ := List.mem_flatMap.mp hx
      rcases List.mem_append.mp hp with hp | hp
      · exact headers_pos hp x hx
      · have hp' : p ∈ finished.flatMap packets ++ (left.flatMap packets).take k' :=
          hpackets ▸ List.mem_append_right _ hp
        rcases List.mem_append.mp hp' with hp' | hp'
        · exact headers_pos hp' x hx
        · exact headers_pos (List.mem_of_mem_take hp') x hx
  · rintro ⟨⟩
  rintro handed ⟨⟩
  refine ⟨?_, ?_, hnormal, left, k', hqueue, hat', ?_, ?_, ?_, ?_, fun hr => ?_⟩
  · show l.sender.sentPriorityMessages ++ sentPriority = sentPriority
    rw [hsp, List.nil_append]
  · show l.queuedPriority = l.writtenPriority ++ sentPriority ++ leftPriority
    rw [hpri, hsplit, List.append_assoc]
  · show r.sendQHeaders.length = headerCount (sentPriority ++ finished) + k'
    rw [hqueueHeaders, List.length_append, List.flatMap_append, List.length_append,
      length_flatMap_headers, hcount, hlen]
    omega
  · show l.sender.messageBytesSent + (r.socketQueue.flatten.length : ℤ) = _
    rw [hsocket, length_flatMap_bytes, hbytes, bodySum_append, hpriBodies]
    show _ = ((totalLength r.sendQHeaders + bodyBytes (sentPriority ++ finished)
      + bytesSend : ℕ) : ℤ)
    rw [hqueueHeaders, totalLength_append, hbody]
    push_cast
    omega
  · show sentPriority ++ finished ≠ [] ∨ 0 < k'
    by_contra hnone
    rw [not_or, not_not, List.append_eq_nil_iff, not_lt, Nat.le_zero] at hnone
    obtain ⟨⟨rfl, rfl⟩, rfl⟩ := hnone
    rw [List.flatMap_nil, List.nil_append, List.take_zero] at hpackets
    have hsent : sent = [] := (List.append_eq_nil_iff.mp hpackets.symm).2
    have hnoPriority : l.sender.priorityMessageQueue = [] := by
      by_contra hne
      exact hsome hne rfl
    rw [hnoPriority] at hpriority
    obtain ⟨-, -, rfl⟩ : [] = leftPriority ∧ True ∧ _ = mid := by
      simpa [priorityLoop] using hpriority
    exact hsome' (show (0 : ℤ) < 256000 by decide) (fun hmq => hstart ⟨hmq, hnoPriority⟩) hsent
  · intro m hm hlarge
    rcases List.mem_append.mp hm with hm | hm
    · exact absurd hlarge (hsmall m hm)
    · exact ⟨hown m hm hlarge, h.exact m (hqueue ▸ List.mem_append_left _ hm) hlarge⟩
  · have hk : k = 0 := hrec hr
    have hnil : l.sender.sendQHeaders = [] := List.length_eq_zero_iff.mp (hlen.trans hk)
    show r.sendQHeaders = _
    rw [hqueueHeaders, hnil, List.nil_append]
    rw [hk, List.take_zero, List.nil_append] at hpackets
    rw [← hpackets]
    show _ = ((sentPriority ++ finished).flatMap packets
      ++ (left.flatMap packets).take k').flatMap Packet.headers
    simp only [List.flatMap_append, List.append_assoc]

/-! ### The end of a write -/

/-- A message that has begun has fewer chunks on the line than it has. -/
theorem unfinished_of_atPacket {queue : List Message} {k bytesSend : ℕ}
    (hexact : ∀ m ∈ queue, ExactCount m) (h : AtPacket queue k bytesSend) :
    Unfinished queue k bytesSend := by
  rcases h with h0 | ⟨m, ms, rfl, hlarge, hpos, hlt, -⟩
  · exact .inl h0
  · refine .inr ⟨m, ms, rfl, hlarge, hpos, ?_⟩
    have hle : m.body.length ≤ m.size := by
      rw [Message.body, List.length_drop]
      exact Nat.sub_le _ _
    rw [hexact m List.mem_cons_self hlarge]
    rw [lt_chunkCount_iff] at hlt ⊢
    omega

/-- What the loop of `sentSomeBytes` takes off. -/
theorem Kept.removeWritten {l : History} {handed : Handed} (h : l.Kept)
    (hin : l.sender.inFlight = some handed)
    (hbound : l.sender.messageBytesSent + handed.bytes.length < 2 ^ 31) :
    Sender.removeWritten (l.sender.sentPriorityMessages ++ l.sender.messageQueue)
        l.sender.sendQHeaders ((l.sender.messageBytesSent + handed.bytes.length).bmod (2 ^ 32))
      = some ((handed.priority ++ handed.finished).length,
        l.sender.sendQHeaders.drop (headerCount (handed.priority ++ handed.finished)),
        ((totalLength (l.sender.sendQHeaders.drop
          (headerCount (handed.priority ++ handed.finished)))
            + l.sender.messageBytesSend : ℕ) : ℤ)) := by
  obtain ⟨hsp, -, -, left, k, hqueue, hat, hlen, hbytes, hsome, hcounted, -⟩ :=
    h.writing handed hin
  have hleft : ∀ m ∈ left, ExactCount m := fun m hm =>
    h.exact m (hqueue ▸ List.mem_append_right _ hm)
  have hmod : (l.sender.messageBytesSent + handed.bytes.length).bmod (2 ^ 32)
      = l.sender.messageBytesSent + handed.bytes.length := by
    apply Int.bmod_eq_of_le
    · rw [hbytes]
      omega
    · omega
  rw [hmod, hsp, hqueue, ← List.append_assoc]
  exact removeWritten_spec (unfinished_of_atPacket hleft hat) hcounted h.positive
    hlen.symm hbytes (hsome.imp_right .inl)

/-- No assertion fails. -/
theorem Kept.exists_sentSomeBytes {l : History} {handed : Handed} (h : l.Kept)
    (hin : l.sender.inFlight = some handed)
    (hbound : l.sender.messageBytesSent + handed.bytes.length < 2 ^ 31) :
    ∃ s, l.sender.sentSomeBytes handed.bytes.length = some s := by
  unfold Sender.sentSomeBytes
  rw [h.removeWritten hin hbound]
  exact ⟨_, rfl⟩

/-- **A write that succeeds** takes off what it has completed. -/
theorem Kept.writeDone {l : History} {handed : Handed} {s : Sender} (h : l.Kept)
    (hin : l.sender.inFlight = some handed)
    (hbound : l.sender.messageBytesSent + handed.bytes.length < 2 ^ 31)
    (hsent : l.sender.sentSomeBytes handed.bytes.length = some s) :
    let l' : History := { l with
      sender := s
      writtenPriority := l.writtenPriority ++ handed.priority
      writtenNormal := l.writtenNormal ++ handed.finished
      recovering := false }
    l'.Kept ∧ (l.recovering = true → l'.Recovered) := by
  obtain ⟨hsp, hpri, hnormal, left, k, hqueue, hat, hlen, -, -, -, hexact⟩ := h.writing handed hin
  have hleft : ∀ m ∈ left, ExactCount m := fun m hm =>
    h.exact m (hqueue ▸ List.mem_append_right _ hm)
  unfold Sender.sentSomeBytes at hsent
  rw [h.removeWritten hin hbound] at hsent
  simp only [Option.bind_eq_bind, Option.bind_some, Option.some.injEq, hsp, hqueue] at hsent
  have hdropPriority : handed.priority.drop (handed.priority ++ handed.finished).length = [] := by
    apply List.drop_eq_nil_of_le
    rw [List.length_append]
    omega
  have hdropQueue : (handed.finished ++ left).drop
      ((handed.priority ++ handed.finished).length - handed.priority.length) = left := by
    rw [List.length_append, Nat.add_sub_cancel_left, List.drop_left]
  rw [hdropPriority, hdropQueue] at hsent
  subst hsent
  intro l'
  have hdrop : (l.sender.sendQHeaders.drop
      (headerCount (handed.priority ++ handed.finished))).length = k := by
    rw [List.length_drop, hlen, Nat.add_sub_cancel_left]
  have hpri' : l.queuedPriority
      = l.writtenPriority ++ handed.priority ++ l.sender.priorityMessageQueue := hpri
  have hnormal' : l.queuedNormal = l.writtenNormal ++ handed.finished ++ left := by
    rw [hnormal, hqueue, List.append_assoc]
  refine ⟨⟨hleft, h.small, fun x hx => h.positive x (List.mem_of_mem_drop hx),
    fun _ => ⟨rfl, hpri', hnormal', k, hat, hdrop, rfl, by rintro ⟨⟩⟩, by rintro handed ⟨⟩⟩,
    fun hrec => ⟨⟨rfl, k, hat, ?_⟩, hpri', hnormal'⟩⟩
  show l.sender.sendQHeaders.drop (headerCount (handed.priority ++ handed.finished)) = _
  rw [hexact hrec, List.flatMap_append, ← length_flatMap_headers, List.drop_left]

/-- **A write that fails** while nothing is outstanding leaves nothing to mend. -/
theorem Kept.writeFailed {l : History} {handed : Handed} (h : l.Kept)
    (hin : l.sender.inFlight = some handed)
    (hnone : l.sender.sentPriorityMessages = [] ∧ l.sender.sendQHeaders = []) :
    Kept { l with sender := l.sender.sentError, recovering := true } := by
  obtain ⟨hsp, hpri, hnormal, -⟩ := h.writing handed hin
  rw [hnone.1] at hsp
  rw [← hsp, List.append_nil] at hpri
  refine ⟨h.exact, h.small, h.positive,
    fun _ => ⟨hnone.1, hpri, hnormal, 0, AtPacket.zero, ?_, ?_, fun _ => rfl⟩,
    by rintro handed ⟨⟩⟩
  · show l.sender.sendQHeaders.length = 0
    rw [hnone.2]
    rfl
  · show (0 : ℤ) = (totalLength l.sender.sendQHeaders + 0 : ℕ)
    rw [hnone.2]
    rfl

/-- One event. -/
theorem Kept.step {grow : ℕ → ℕ} {l l' : History} {e : WriteEvent} (h : l.Kept)
    (hcareful : l.Careful e) (hstep : l.step grow e = some l') : l'.Kept := by
  cases e with
  | queueMessage m priority =>
    obtain rfl := Option.some.inj hstep
    exact h.queueMessage hcareful
  | runMessageQueue =>
    obtain ⟨s, hrun, rfl⟩ := Option.map_eq_some_iff.mp hstep
    exact h.runMessageQueue hrun
  | writeDone =>
    rw [History.step] at hstep
    split at hstep
    · obtain rfl := Option.some.inj hstep
      exact h
    · rename_i handed hin
      obtain ⟨s, hsent, rfl⟩ := Option.map_eq_some_iff.mp hstep
      exact (h.writeDone hin (hcareful handed hin) hsent).1
  | writeFailed =>
    rw [History.step] at hstep
    split at hstep
    · obtain rfl := Option.some.inj hstep
      exact h
    · rename_i handed hin
      obtain rfl := Option.some.inj hstep
      exact h.writeFailed hin (hcareful (by rw [hin]; rfl))

/-- **Recovery.**  In a careful run the first write that succeeds behind a failure leaves the
lists consistent. -/
theorem recovered_of_careful {grow : ℕ → ℕ} {events : List WriteEvent} {l l' : History}
    (hcareful : Runs.Each (step grow) Careful create events)
    (hrun : events.foldlM (step grow) create = some l) (hlast : l.Careful .writeDone)
    (hrec : l.recovering = true) (hwriting : l.sender.inFlight.isSome)
    (hdone : l.step grow .writeDone = some l') : l'.Recovered := by
  have hkept : l.Kept :=
    Runs.foldlM_inv_of_each (fun _ _ _ h hc hs => h.step hc hs) kept_create hcareful hrun
  obtain ⟨handed, hin⟩ := Option.isSome_iff_exists.mp hwriting
  have hbound := hlast handed hin
  rw [step, hin] at hdone
  obtain ⟨s, hsent, rfl⟩ := Option.map_eq_some_iff.mp hdone
  exact (hkept.writeDone hin hbound hsent).2 hrec

/-- A message of a header only. -/
def headerMessage : Message where
  rawData := ⟨[0x05, 0x00, 0x08, 0x10, 0x04], by decide⟩
  headerSize := 5
  headerSize_le := le_refl 5
  headerData := ∅

/-- The write of a message with its own header fails, and the next one succeeds. -/
theorem recovered_of_careful_headerMessage : ∃ l l',
    [.queueMessage headerMessage .normalPriority, .runMessageQueue, .writeFailed,
      .runMessageQueue].foldlM (step id) create = some l ∧
    l.step id .writeDone = some l' ∧ l'.writtenNormal.length = 1 ∧ l'.Recovered := by
  have hcareful : Runs.Each (step id) Careful create
      [.queueMessage headerMessage .normalPriority, .runMessageQueue, .writeFailed,
        .runMessageQueue] := by decide +kernel
  obtain ⟨hrun, hlast, hrec, hwriting, hdone, hwritten⟩ :
      ∃ hrun : ([.queueMessage headerMessage .normalPriority, .runMessageQueue, .writeFailed,
        .runMessageQueue].foldlM (step id) create).isSome,
      (Option.get _ hrun).Careful .writeDone ∧ (Option.get _ hrun).recovering = true ∧
      (Option.get _ hrun).sender.inFlight.isSome ∧
      ∃ hdone : ((Option.get _ hrun).step id .writeDone).isSome,
      (Option.get _ hdone).writtenNormal.length = 1 := by decide +kernel
  exact ⟨_, _, (Option.some_get hrun).symm, (Option.some_get hdone).symm, hwritten,
    recovered_of_careful hcareful (Option.some_get hrun).symm hlast hrec hwriting
      (Option.some_get hdone).symm⟩

theorem length_threeBytes : ([1, 2, 3] : List UInt8).length < 2 ^ 31 := Nat.le_of_ble_eq_true rfl

/-- A message of three bytes. -/
def threeBytes : Message := Message.ofPayload ⟨[1, 2, 3], length_threeBytes⟩ 16 2

/-- The write of a priority message fails.  The next one, of a message of the other queue, is
taken for it: the priority message is gone, and the other one is still queued. -/
theorem not_recovered_priorityMessage : ∃ l l',
    [.queueMessage threeBytes .highPriority, .runMessageQueue, .writeFailed,
      .queueMessage threeBytes .normalPriority, .runMessageQueue].foldlM (step id) create = some l ∧
    l.recovering = true ∧ l.step id .writeDone = some l' ∧ ¬ l'.Recovered := by
  obtain ⟨hrun, hrec, hdone, hqueued, hwritten⟩ :
      ∃ hrun : ([.queueMessage threeBytes .highPriority, .runMessageQueue, .writeFailed,
        .queueMessage threeBytes .normalPriority, .runMessageQueue].foldlM
          (step id) create).isSome,
      (Option.get _ hrun).recovering = true ∧
      ∃ hdone : ((Option.get _ hrun).step id .writeDone).isSome,
      (Option.get _ hdone).queuedPriority.length = 1 ∧
      ((Option.get _ hdone).writtenPriority
        ++ (Option.get _ hdone).sender.priorityMessageQueue).length = 0 := by decide +kernel
  refine ⟨_, _, (Option.some_get hrun).symm, hrec, (Option.some_get hdone).symm, fun h => ?_⟩
  rw [h.priority, hwritten] at hqueued
  cases hqueued

end History

end Sender

end Network
