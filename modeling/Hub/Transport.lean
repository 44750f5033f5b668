/-
# What the peer is handed

A connection writes its messages as packets: a small message in one, a large one in chunks, with messages of
the priority queue between them.  The peer cuts the stream into packets again, keeps the chunks of at most
one message, and hands each message over.

`Transfer` keeps the bytes that were written next to the connection.  Between two packets the peer has
gathered the first chunks of the message that the connection has begun (`Gathered`), and every packet moves
both on.

* `delivers_of_run` : a run without failed writes gets through, and the peer is handed every message whose
  last byte was written, once, with its body, those of each queue in their order; it does not count how the
  stream is cut into segments, as long as the receive buffer of the peer does not move with unread bytes in
  it, nor which integers the peer does not take.
-/
import Hub.HeaderDecoding
import Hub.HeaderRoom
import Hub.SendRecovery

namespace Network

open Streaming (ConstBuffer MessageField MessageParser)
open Streaming.MessageParts (wires)
open Streaming.MessageParser (intMax)

/-! ## Messages that are carried -/

/-- A message without a header of its own, to a service other than the system's, that the peer takes: its
ids are `int`s for the parser, the header that is made for it fits in the bytes reserved and leaves it room
in the packet, and its chunks can be counted. -/
structure Carried (m : Message) : Prop where
  noHeader : m.hasHeader = false
  names : ∀ e ∈ m.headerData.toList,
    e.1 = Network.serviceId.toInt32 ∨ e.1 = Network.messageId.toInt32 ∨ e.1 > 10
  service_nonneg : m.serviceId ≥ 0
  service_user : m.serviceId ≠ systemServiceId
  service_int : m.serviceId ≠ intMax
  message_int : m.messageId ≠ intMax
  room : RoomSuffices m
  fits : FitsPacket m
  size_lt : m.size < 2 ^ 24

theorem Carried.sendable {m : Message} (h : Carried m) : Sendable m :=
  ⟨h.noHeader, h.service_nonneg, h.room⟩

/-- The integer that the peer finds under a name.  Chunks carry the ids only. -/
def carriedInt (m : Message) (name : Int32) : Int32 :=
  if name = Network.serviceId.toInt32 then m.serviceId
  else if name = Network.messageId.toInt32 then
    if m.size > chunkSize ∧ ¬ m.messageId ≥ 0 then -1 else m.messageId
  else if m.size > chunkSize then -1
  else if m.headerInt name ≠ intMax ∧ name.toUInt32 < 0xFFFFFF then m.headerInt name
  else -1

/-- What becomes of a message. -/
structure Arrives (m : Message) (d : Delivery) : Prop where
  body : d.message.body = m.body
  overrun : d.overrun = 0
  ints : ∀ name, d.message.headerInt name = carriedInt m name

/-- Messages of two queues are handed over, those of each in their order. -/
inductive Delivers : List Message → List Message → List Delivery → Prop where
  | nil : Delivers [] [] []
  | priority {ps ns : List Message} {ds : List Delivery} {m : Message} {d : Delivery} :
      Delivers ps ns ds → Arrives m d → Delivers (ps ++ [m]) ns (ds ++ [d])
  | normal {ps ns : List Message} {ds : List Delivery} {m : Message} {d : Delivery} :
      Delivers ps ns ds → Arrives m d → Delivers ps (ns ++ [m]) (ds ++ [d])

/-! ## Headers -/

section Header

variable {m : Message}

/-- The field of an entry of the map of integers. -/
def entryField (e : Int32 × Int32) : MessageField := ⟨e.1.toUInt32, .int32 e.2⟩

theorem toUInt32_eq_iff {x : Int32} {tag : UInt32} : x.toUInt32 = tag ↔ x = tag.toInt32 := by
  constructor
  · rintro rfl
    exact (Int32.toInt32_toUInt32 x).symm
  · rintro rfl
    exact UInt32.toUInt32_toInt32 tag

/-- The names of an entry that is not an id: above `10`, and no other tag of the protocol. -/
theorem tag_of_name {x : Int32} (h : x > 10) : 10 < x.toUInt32.toNat := by
  have hpos : 10 < x.toInt := Int32.lt_iff_toInt_lt.mp h
  have hnonneg : 0 ≤ x := Int32.le_iff_toInt_le.mpr (by
    change 0 ≤ x.toInt
    omega)
  rw [Int32.toNat_toUInt32_of_le hnonneg, Int32.toNatClampNeg]
  omega

/-- An entry that is kept among the integers. -/
def KeptEntry (e : Int32 × Int32) : Prop := e.1 > 10 ∧ e.2 ≠ intMax ∧ e.1.toUInt32 < 0xFFFFFF

instance (e : Int32 × Int32) : Decidable (KeptEntry e) :=
  inferInstanceAs (Decidable (_ ∧ _ ∧ _))

theorem getElem?_insertIfNew (t : Std.TreeMap Int32 Int32) (k v n : Int32) :
    (t.insertIfNew k v)[n]? = t[n]?.or (if k = n then some v else none) := by
  rw [Std.TreeMap.getElem?_insertIfNew]
  simp only [Std.LawfulEqCmp.compare_eq_iff_eq]
  by_cases hk : k = n
  · subst hk
    rw [if_pos rfl]
    by_cases hmem : k ∈ t
    · rw [if_neg fun hc => hc.2 hmem]
      obtain ⟨w, hw⟩ := Option.isSome_iff_exists.mp (Std.TreeMap.mem_iff_isSome_getElem?.mp hmem)
      rw [hw]
      rfl
    · rw [if_pos ⟨rfl, hmem⟩, Std.TreeMap.getElem?_eq_none hmem]
      rfl
  · rw [if_neg fun hc => hk hc.1, if_neg hk, Option.or_none]

/-- The header that the entries of a map of integers make. -/
theorem foldl_entryField {service message : Int32} : ∀ {es : List (Int32 × Int32)}
    {h : PacketHeader},
    (∀ e ∈ es, e.1 = Network.serviceId.toInt32 ∨ e.1 = Network.messageId.toInt32 ∨ e.1 > 10) →
    (∀ e ∈ es, e.1 = Network.serviceId.toInt32 → e.2 = service) →
    (∀ e ∈ es, e.1 = Network.messageId.toInt32 → e.2 = message) →
    (h.serviceId = service ∨ ∃ e ∈ es, e.1 = Network.serviceId.toInt32) →
    (h.messageId = message ∨ ∃ e ∈ es, e.1 = Network.messageId.toInt32) →
    let h' := (es.map entryField).foldl PacketHeader.addWire h
    h'.serviceId = service ∧ h'.messageId = message ∧ h'.lastInSequence = h.lastInSequence ∧
      ∀ n : Int32, h'.headerData[n]? = h.headerData[n]?.or
        (((es.filter fun e => KeptEntry e).find? (·.1 == n)).map Prod.snd) := by
  intro es
  induction es with
  | nil =>
    intro h _ _ _ hs hm
    exact ⟨hs.resolve_right (by simp), hm.resolve_right (by simp), rfl, fun n => by simp⟩
  | cons e es ih =>
    intro h hnames hservice hmessage hs hm
    have hcons : ∀ {x}, x ∈ es → x ∈ e :: es := fun hx => List.mem_cons_of_mem e hx
    have hrest := ih (h := h.addWire (entryField e)) (fun x hx => hnames x (hcons hx))
      (fun x hx => hservice x (hcons hx)) (fun x hx => hmessage x (hcons hx))
    rw [List.map_cons, List.foldl_cons]
    by_cases h1 : e.1 = Network.serviceId.toInt32
    · have hadd : h.addWire (entryField e) = { h with serviceId := service } := by
        rw [PacketHeader.addWire, entryField]
        simp only
        rw [if_neg (by rw [toUInt32_eq_iff, h1]; decide), if_pos (toUInt32_eq_iff.mpr h1),
          hservice e List.mem_cons_self h1]
      rw [hadd] at hrest ⊢
      obtain ⟨hserv, hmes, hlast, hdata⟩ := hrest (.inl rfl) (hm.imp_right fun ⟨x, hx, heq⟩ => by
        rcases List.mem_cons.mp hx with rfl | hx
        · rw [h1] at heq
          exact absurd heq (by decide)
        · exact ⟨x, hx, heq⟩)
      refine ⟨hserv, hmes, hlast, fun n => ?_⟩
      rw [hdata n, List.filter_cons_of_neg]
      rw [decide_eq_true_eq]
      exact fun hk => absurd hk.1 (by rw [h1]; decide)
    by_cases h2 : e.1 = Network.messageId.toInt32
    · have hadd : h.addWire (entryField e) = { h with messageId := message } := by
        rw [PacketHeader.addWire, entryField]
        simp only
        rw [if_pos (toUInt32_eq_iff.mpr h2), hmessage e List.mem_cons_self h2]
      rw [hadd] at hrest ⊢
      obtain ⟨hserv, hmes, hlast, hdata⟩ := hrest (hs.imp_right fun ⟨x, hx, heq⟩ => by
        rcases List.mem_cons.mp hx with rfl | hx
        · exact absurd heq h1
        · exact ⟨x, hx, heq⟩) (.inl rfl)
      refine ⟨hserv, hmes, hlast, fun n => ?_⟩
      rw [hdata n, List.filter_cons_of_neg]
      rw [decide_eq_true_eq]
      exact fun hk => absurd hk.1 (by rw [h2]; decide)
    -- an integer under a name of its own
    have hname : e.1 > 10 := ((hnames e List.mem_cons_self).resolve_left h1).resolve_left h2
    have htag := tag_of_name hname
    have hne : ∀ {tag : UInt32}, tag.toNat ≤ 10 → ¬ e.1.toUInt32 = tag := fun hle heq => by
      rw [heq] at htag
      omega
    have hs' : h.serviceId = service ∨ ∃ x ∈ es, x.1 = Network.serviceId.toInt32 :=
      hs.imp_right fun ⟨x, hx, heq⟩ => by
        rcases List.mem_cons.mp hx with rfl | hx
        · exact absurd heq h1
        · exact ⟨x, hx, heq⟩
    have hm' : h.messageId = message ∨ ∃ x ∈ es, x.1 = Network.messageId.toInt32 :=
      hm.imp_right fun ⟨x, hx, heq⟩ => by
        rcases List.mem_cons.mp hx with rfl | hx
        · exact absurd heq h2
        · exact ⟨x, hx, heq⟩
    have hstart : h.addWire (entryField e)
        = if e.2 ≠ intMax ∧ e.1.toUInt32 < 0xFFFFFF then
            { h with headerData := h.headerData.insertIfNew e.1 e.2 }
          else h := by
      rw [PacketHeader.addWire, entryField]
      simp only
      rw [if_neg (hne (by decide)), if_neg (hne (by decide)), if_neg (hne (by decide)),
        Int32.toInt32_toUInt32]
    by_cases hkept : e.2 ≠ intMax ∧ e.1.toUInt32 < 0xFFFFFF
    · rw [if_pos hkept] at hstart
      rw [hstart] at hrest ⊢
      obtain ⟨hserv, hmes, hlast, hdata⟩ := hrest hs' hm'
      refine ⟨hserv, hmes, hlast, fun n => ?_⟩
      have hkeep : decide (KeptEntry e) = true := decide_eq_true ⟨hname, hkept⟩
      rw [hdata n, List.filter_cons_of_pos (p := fun e => decide (KeptEntry e)) hkeep]
      simp only
      rw [getElem?_insertIfNew, Option.or_assoc]
      by_cases hn : e.1 = n
      · rw [if_pos hn, List.find?_cons_of_pos (p := fun x : Int32 × Int32 => x.1 == n)
          (beq_iff_eq.mpr hn)]
        rfl
      · rw [if_neg hn, List.find?_cons_of_neg (p := fun x : Int32 × Int32 => x.1 == n)
          (by rwa [beq_iff_eq]), Option.none_or]
    · rw [if_neg hkept] at hstart
      rw [hstart] at hrest ⊢
      obtain ⟨hserv, hmes, hlast, hdata⟩ := hrest hs' hm'
      refine ⟨hserv, hmes, hlast, fun n => ?_⟩
      rw [hdata n, List.filter_cons_of_neg]
      rw [decide_eq_true_eq]
      exact fun hk => hkept hk.2

/-- What the peer makes of an entry of the map. -/
theorem find?_filter_toList (t : Std.TreeMap Int32 Int32) (n : Int32) :
    ((t.toList.filter fun e => KeptEntry e).find? (·.1 == n)).map Prod.snd
      = t[n]?.filter fun v => KeptEntry (n, v) := by
  cases hfind : (t.toList.filter fun e => KeptEntry e).find? (·.1 == n) with
  | none =>
    rw [Option.map_none]
    symm
    rw [Option.filter_eq_none_iff]
    intro v hv hkept
    rw [List.find?_eq_none] at hfind
    have hmem := Std.TreeMap.mem_toList_iff_getElem?_eq_some.mpr hv
    exact hfind (n, v) (List.mem_filter.mpr ⟨hmem, hkept⟩) (beq_self_eq_true n)
  | some e =>
    obtain ⟨hmem, hkept⟩ := List.mem_filter.mp (List.mem_of_find?_eq_some hfind)
    have hfound := List.find?_some hfind
    have hn : e.1 = n := beq_iff_eq.mp hfound
    obtain ⟨k, v⟩ := e
    obtain rfl : k = n := hn
    rw [Std.TreeMap.mem_toList_iff_getElem?_eq_some.mp hmem, Option.map_some,
      Option.filter_some, if_pos hkept]

/-- An id is the value of its entry. -/
theorem value_of_mem_toList {e : Int32 × Int32} (h : e ∈ m.headerData.toList) :
    e.2 = m.headerInt e.1 := by
  have hget := Std.TreeMap.mem_toList_iff_getElem?_eq_some.mp (show (e.1, e.2) ∈ _ from h)
  rw [Message.headerInt, hget]
  rfl

theorem mem_toList_of_headerInt {n : Int32} (h : m.headerInt n ≠ -1) :
    (n, m.headerInt n) ∈ m.headerData.toList := by
  rw [Std.TreeMap.mem_toList_iff_getElem?_eq_some]
  unfold Message.headerInt at h ⊢
  cases hget : m.headerData[n]? with
  | none =>
    rw [hget] at h
    exact absurd rfl h
  | some v => rfl

theorem Carried.service_mem (hm : Carried m) :
    (Network.serviceId.toInt32, m.serviceId) ∈ m.headerData.toList :=
  mem_toList_of_headerInt fun heq => absurd hm.service_nonneg (by
    rw [Message.serviceId, heq]
    decide)

/-- The fields of a generated header may be in one. -/
theorem Carried.headerField_entry (hm : Carried m) {e : Int32 × Int32}
    (he : e ∈ m.headerData.toList) : HeaderField (entryField e) := by
  have hvalue := value_of_mem_toList he
  rcases hm.names e he with h1 | h2 | hname
  · have htag := toUInt32_eq_iff.mpr h1
    rw [HeaderField, entryField]
    simp only [htag]
    refine ⟨by decide, by decide, by decide, fun _ => ?_⟩
    rw [hvalue, h1]
    exact hm.service_int
  · have htag := toUInt32_eq_iff.mpr h2
    rw [HeaderField, entryField]
    simp only [htag]
    refine ⟨by decide, by decide, by decide, fun _ => ?_⟩
    rw [hvalue, h2]
    exact hm.message_int
  · have htag := tag_of_name hname
    have hne : ∀ {tag : UInt32}, tag.toNat ≤ 10 → ¬ e.1.toUInt32 = tag := fun hle heq => by
      rw [heq] at htag
      omega
    exact ⟨hne (by decide), hne (by decide), hne (by decide), fun hc => by
      rcases hc with hc | hc | hc
      · exact absurd hc (hne (by decide))
      · exact absurd hc (hne (by decide))
      · exact absurd hc (hne (by decide))⟩

/-- The header of a message in one packet, as the peer reads it. -/
def simpleHeaderRead (m : Message) : PacketHeader :=
  { (m.headerData.toList.map entryField).foldl PacketHeader.addWire {} with
    headerSize := (wires (simpleFields m)).length }

theorem Carried.simpleHeaderRead_spec (hm : Carried m) :
    (simpleHeaderRead m).serviceId = m.serviceId ∧ (simpleHeaderRead m).messageId = m.messageId ∧
      (simpleHeaderRead m).lastInSequence = none ∧
      ∀ n : Int32, (simpleHeaderRead m).headerData[n]?
        = m.headerData[n]?.filter fun v => KeptEntry (n, v) := by
  have hmessage : (({} : PacketHeader).messageId = m.messageId ∨
      ∃ e ∈ m.headerData.toList, e.1 = Network.messageId.toInt32) := by
    by_cases hid : m.messageId = -1
    · exact .inl hid.symm
    · exact .inr ⟨_, mem_toList_of_headerInt hid, rfl⟩
  have hserviceIds : ∀ e ∈ m.headerData.toList, e.1 = Network.serviceId.toInt32 →
      e.2 = m.serviceId := fun e he heq => by
    rw [value_of_mem_toList he, heq]
    rfl
  have hmessageIds : ∀ e ∈ m.headerData.toList, e.1 = Network.messageId.toInt32 →
      e.2 = m.messageId := fun e he heq => by
    rw [value_of_mem_toList he, heq]
    rfl
  obtain ⟨hserv, hmes, hlast, hdata⟩ := foldl_entryField (h := {}) hm.names hserviceIds
    hmessageIds (.inr ⟨_, hm.service_mem, rfl⟩) hmessage
  refine ⟨hserv, hmes, hlast, fun n => ?_⟩
  have hfound := hdata n
  rw [find?_filter_toList] at hfound
  refine hfound.trans ?_
  change (∅ : Std.TreeMap Int32 Int32)[n]?.or _ = _
  rw [Std.TreeMap.getElem?_emptyc]
  rfl

/-- What is sent for the message id of a chunk. -/
def chunkMessageId (m : Message) : Int32 := if m.messageId ≥ 0 then m.messageId else -1

/-- The header of a chunk, as the peer reads it. -/
def chunkHeaderRead (m : Message) (first last : Bool) : PacketHeader where
  headerSize := (wires (chunkFields m first last)).length
  messageId := chunkMessageId m
  serviceId := m.serviceId
  lastInSequence := some last
  sequenceSize := if first then Int32.ofNat m.body.length else -1

/-- The fields of a chunk in front of the end of the header. -/
def chunkIds (m : Message) (first last : Bool) : List MessageField :=
  [⟨Network.serviceId, .int32 m.serviceId⟩]
    ++ (if m.messageId ≥ 0 then [⟨Network.messageId, .int32 m.messageId⟩] else [])
    ++ (if first then [⟨Network.sequenceStart, .int32 (Int32.ofNat m.body.length)⟩] else [])
    ++ [⟨Network.lastInSequence, .bool last⟩]

theorem chunkFields_eq (m : Message) (first last : Bool) :
    chunkFields m first last = chunkIds m first last ++ [headerEndField] := by
  rw [chunkFields, chunkIds, List.append_assoc, List.append_assoc, List.append_assoc,
    List.append_assoc, List.append_assoc]
  rfl

theorem length_body_lt (hm : Carried m) : m.body.length < 2 ^ 24 := by
  rw [body_length_of_noHeader hm.noHeader]
  exact hm.size_lt

theorem toInt_sequenceSize (hm : Carried m) :
    (Int32.ofNat m.body.length).toInt = m.body.length := by
  have hlt := length_body_lt hm
  rw [Int32.toInt_ofNat_of_lt (by omega)]

theorem headerField_id {tag : UInt32} {v : Int32} (hv : v ≠ intMax)
    (htag : tag = Network.serviceId ∨ tag = Network.messageId ∨ tag = Network.sequenceStart) :
    HeaderField ⟨tag, .int32 v⟩ := by
  change tag ≠ Network.headerEnd ∧ tag ≠ Network.lastInSequence ∧ tag ≠ Network.ping ∧ _
  rcases htag with rfl | rfl | rfl
  · exact ⟨by decide, by decide, by decide, fun _ => hv⟩
  · exact ⟨by decide, by decide, by decide, fun _ => hv⟩
  · exact ⟨by decide, by decide, by decide, fun _ => hv⟩

theorem Carried.headerField_chunkIds (hm : Carried m) (first last : Bool) :
    ∀ f ∈ chunkIds m first last, HeaderField f := by
  have hsize := toInt_sequenceSize hm
  have hlt := length_body_lt hm
  have hmax : Int32.ofNat m.body.length ≠ intMax := by
    intro heq
    rw [heq] at hsize
    change (2147483647 : ℤ) = _ at hsize
    omega
  intro f hf
  rw [chunkIds, List.mem_append, List.mem_append, List.mem_append, List.mem_singleton,
    List.mem_singleton] at hf
  rcases hf with ((rfl | hf) | hf) | rfl
  · exact headerField_id hm.service_int (.inl rfl)
  · split_ifs at hf with hid
    · obtain rfl := List.mem_singleton.mp hf
      exact headerField_id hm.message_int (.inr (.inl rfl))
    · cases hf
  · split_ifs at hf
    · obtain rfl := List.mem_singleton.mp hf
      exact headerField_id hmax (.inr (.inr rfl))
    · cases hf
  · exact rfl

theorem foldl_chunkIds (m : Message) (first last : Bool) :
    { (chunkIds m first last).foldl PacketHeader.addWire {} with
      headerSize := (wires (chunkFields m first last)).length } = chunkHeaderRead m first last := by
  rw [chunkIds, chunkHeaderRead, chunkMessageId]
  by_cases hid : m.messageId ≥ 0
  · rw [if_pos hid, if_pos hid]
    cases first
    · rfl
    · rfl
  · rw [if_neg hid, if_neg hid]
    cases first
    · rfl
    · rfl

end Header

/-! ## One packet -/

namespace Receiver

/-- The reader goes from `r` to `r'` over the bytes, and all packets on the way are decided. -/
def Follows (r : Receiver) (bytes : List UInt8) (r' : Receiver) : Prop :=
  ∀ v, Segments.run takePacket r (bytes ++ v) = Segments.run takePacket r' v ∧
    (Segments.Along takePacket DecidedAt (v.length + 1) r' v →
      Segments.Along takePacket DecidedAt ((bytes ++ v).length + 1) r (bytes ++ v))

theorem Follows.refl (r : Receiver) : Follows r [] r := fun _ => ⟨rfl, id⟩

theorem Follows.trans {r₁ r₂ r₃ : Receiver} {x y : List UInt8} (h₁ : Follows r₁ x r₂)
    (h₂ : Follows r₂ y r₃) : Follows r₁ (x ++ y) r₃ := by
  intro v
  rw [List.append_assoc]
  exact ⟨(h₁ (y ++ v)).1.trans (h₂ v).1, fun h => (h₁ (y ++ v)).2 ((h₂ v).2 h)⟩

/-- **A packet** at the front of the stream is processed, whatever follows it. -/
theorem follows_packet {r r' : Receiver} {p : List UInt8} (h4 : 4 ≤ p.length)
    (hlength : packetLength p = p.length) (hmax : p.length ≤ maxMessageSize)
    (hfirst : p.getD 2 0 = 8) (hdecided : Decided p)
    (hproc : { r with firstPacket := false }.processPacket (p ++ [0, 0]) = (r', true)) :
    Follows r p r' := by
  intro v
  have hready : PacketReady r p := ⟨h4, fun _ => hfirst, hlength ▸ hmax, hlength.le⟩
  have hready' := hready.append v
  have hfront : packetLength (p ++ v) = p.length := by
    rw [packetLength_append (le_trans (by decide) h4), hlength]
  have htake : takePacket r (p ++ v) = .item r' p.length := by
    rw [takePacket_of_ready hready', alone, hfront, List.take_left, hproc]
  constructor
  · rw [stable_takePacket.run_eq, htake]
    simp only
    rw [List.drop_left]
  · intro halong
    rw [Segments.Along, htake]
    refine ⟨fun _ => (decided_append h4 hlength.le v).mpr hdecided, ?_⟩
    simp only
    rw [List.drop_left]
    refine (stable_takePacket.along_iff_along (Nat.lt_succ_self _) ?_).mp halong
    rw [List.length_append]
    omega

/-- A message that is handed over. -/
theorem deliver_spec (r : Receiver) (d : Delivery) {h : PacketHeader}
    (hnames : ∀ n v : Int32, h.headerData[n]? = some v → n > 10) :
    ∃ m', r.deliver d h
        = ({ r with delivered := r.delivered ++ [{ d with message := m' }] }, true) ∧
      m'.body = d.message.body ∧
      ∀ name, m'.headerInt name =
        if name = Network.serviceId.toInt32 then h.serviceId
        else if name = Network.messageId.toInt32 then h.messageId
        else (d.message.headerData[name]?.or h.headerData[name]?).getD (-1) := by
  have hall : ∀ e ∈ h.headerData.toList, e.1 > 10 := fun e he =>
    hnames e.1 e.2 (Std.TreeMap.mem_toList_iff_getElem?_eq_some.mp (show (e.1, e.2) ∈ _ from he))
  obtain ⟨m', hset, hraw, hsize, hdata⟩ := Message.setHeaderInts_eq_some
    (m := (d.message.setMessageId h.messageId).setServiceId h.serviceId) hall
  refine ⟨m', ?_, ?_, fun name => ?_⟩
  · rw [deliver, hset]
  · rw [Message.body, Message.body, hraw, hsize]
    rfl
  · rw [Message.headerInt, hdata]
    simp only [Message.headerData_setServiceId, Message.headerData_setMessageId]
    by_cases h1 : name = Network.serviceId.toInt32
    · rw [if_pos h1, if_pos h1]
      rfl
    · rw [if_neg h1, if_neg h1]
      by_cases h2 : name = Network.messageId.toInt32
      · rw [if_pos h2, if_pos h2]
        rfl
      · rw [if_neg h2, if_neg h2]

end Receiver

/-- Both kinds of generated headers begin with the service, whose byte is the one that the peer wants to see
first. -/
theorem getD_two_headerBytes {v : Int32} (hv : v ≥ 0) (fields : List MessageField) (n : ℕ)
    (body : List UInt8) :
    (headerBytes (⟨Network.serviceId, .int32 v⟩ :: fields) n ++ body).getD 2 0 = 8 := by
  have htype : Streaming.int32Type v = .positiveNumber := if_pos hv
  have hwire : MessageField.wire ⟨Network.serviceId, .int32 v⟩
      = 8 :: Streaming.serialize (Streaming.int32Magnitude v) := by
    rw [MessageField.wire]
    simp only [htype]
    rfl
  rw [headerBytes, List.map_cons, List.flatten_cons, hwire]
  rfl

/-- The service comes first in the map of integers. -/
theorem Carried.toList_eq {m : Message} (hm : Carried m) :
    ∃ es, m.headerData.toList = (Network.serviceId.toInt32, m.serviceId) :: es := by
  have hmem := hm.service_mem
  have hsorted := Std.TreeMap.ordered_keys_toList (t := m.headerData)
  cases hes : m.headerData.toList with
  | nil =>
    rw [hes] at hmem
    cases hmem
  | cons e es =>
    refine ⟨es, ?_⟩
    rw [hes] at hmem hsorted
    rcases List.mem_cons.mp hmem with heq | hin
    · rw [heq]
    · have hlt := List.rel_of_pairwise_cons hsorted hin
      rw [Std.compare_eq_lt] at hlt
      change e.1 < Network.serviceId.toInt32 at hlt
      have he : e ∈ m.headerData.toList := by
        rw [hes]
        exact List.mem_cons_self
      rcases hm.names e he with h1 | h2 | hname
      · rw [h1] at hlt
        exact absurd hlt (by decide)
      · rw [h2] at hlt
        exact absurd hlt (by decide)
      · exact absurd (Int32.lt_trans hname hlt) (by decide)

namespace Receiver

/-- **A message in one packet** is handed over, also while chunks of another are gathered. -/
theorem follows_small {m : Message} (hm : Carried m) (hsmall : ¬ m.size > chunkSize)
    (r : Receiver) : ∃ d, Arrives m d ∧ Follows r ((packets m).flatMap Packet.bytes)
      { r with firstPacket := false, delivered := r.delivered ++ [d] } := by
  have hbytes : (packets m).flatMap Packet.bytes
      = headerBytes (simpleFields m) m.rawData.bytes.length ++ m.rawData.bytes := by
    rw [packets, if_neg hsmall, if_neg (by rw [hm.noHeader]; decide)]
    simp [Packet.bytes, simpleHeader, Message.size]
  have hsum : 3 + (m.headerData.toList.map fun e => intSize e.1.toUInt32 e.2).sum + m.size
      ≤ maxMessageSize := by
    have hfits := hm.fits
    rw [FitsPacket, if_neg (by rw [hm.noHeader]; decide)] at hfits
    exact hfits (not_lt.mp hsmall) hm.service_nonneg
  have hmax : (headerBytes (simpleFields m) m.rawData.bytes.length).length
      + m.rawData.bytes.length ≤ maxMessageSize := by
    rw [length_simpleHeader]
    exact hsum
  obtain ⟨hread, hdecided, hdrop, hsize⟩ := readHeader_headerBytes
    (m.headerData.toList.map entryField) m.rawData.bytes
    (fun f hf => by
      obtain ⟨e, he, rfl⟩ := List.mem_map.mp hf
      exact hm.headerField_entry he) hmax
  change ∀ more, readHeader (headerBytes (simpleFields m) _ ++ _ ++ more)
    = .complete (simpleHeaderRead m) at hread
  obtain ⟨hframe, -⟩ := take_packetLength_headerBytes hmax []
  rw [List.append_nil] at hframe
  obtain ⟨p, hp⟩ : ∃ p, p = headerBytes (simpleFields m) m.rawData.bytes.length
    ++ m.rawData.bytes := ⟨_, rfl⟩
  change Decided (headerBytes (simpleFields m) _ ++ _) at hdecided
  change (headerBytes (simpleFields m) _ ++ _).drop ((simpleHeaderRead m).headerSize + 2) = _ at hdrop
  change (simpleHeaderRead m).headerSize + 2 + _ = (headerBytes (simpleFields m) _ ++ _).length at hsize
  obtain ⟨es, hes⟩ := hm.toList_eq
  have hfirst : (headerBytes (simpleFields m) m.rawData.bytes.length
      ++ m.rawData.bytes).getD 2 0 = 8 := by
    rw [simpleFields, hes]
    exact getD_two_headerBytes hm.service_nonneg _ _ _
  have hlong : 2 ≤ (simpleHeaderRead m).headerSize := by
    have hcount : 2 ≤ (simpleFields m).length := by
      rw [simpleFields, List.length_append, List.length_map, hes, List.length_cons,
        List.length_singleton]
      omega
    exact hcount.trans (length_le_wires (simpleFields m))
  rw [hbytes, ← hp]
  rw [← hp] at hread hframe hdecided hdrop hsize hfirst
  have hlength : packetLength (p ++ [0, 0]) = p.length := by
    rw [packetLength_append (by omega), hframe]
  obtain ⟨hserv, hmes, hlast, hdata⟩ := hm.simpleHeaderRead_spec
  have hfull : (packetBytes (p ++ [0, 0])).bytes = p.drop 2 := by
    rw [packetBytes]
    simp only
    rw [hlength, List.take_left]
  have hle : (simpleHeaderRead m).headerSize ≤ (packetBytes (p ++ [0, 0])).bytes.length := by
    rw [hfull, List.length_drop]
    omega
  obtain ⟨m', hdeliver, hbody, hints⟩ := deliver_spec { r with firstPacket := false }
    (packetMessage (p ++ [0, 0]) (simpleHeaderRead m)) (h := simpleHeaderRead m) (fun n v hn => by
      rw [hdata n] at hn
      exact (of_decide_eq_true (Option.filter_eq_some_iff.mp hn).2).1)
  refine ⟨{ packetMessage (p ++ [0, 0]) (simpleHeaderRead m) with message := m' },
    ⟨?_, ?_, fun name => ?_⟩, ?_⟩
  · have hzero : m.headerSize = 0 := by
      have hno := hm.noHeader
      simpa [Message.hasHeader] using hno
    change m'.body = _
    rw [hbody]
    change (packetBytes (p ++ [0, 0])).bytes.drop (min (simpleHeaderRead m).headerSize
      (packetBytes (p ++ [0, 0])).bytes.length) = _
    rw [Nat.min_eq_left hle, Message.body, hfull, hzero, List.drop_drop, List.drop_zero,
      Nat.add_comm]
    exact hdrop
  · change (simpleHeaderRead m).headerSize + 2 - packetLength (p ++ [0, 0]) = 0
    omega
  · rw [hints name, carriedInt, hserv, hmes]
    by_cases h1 : name = Network.serviceId.toInt32
    · rw [if_pos h1, if_pos h1]
    rw [if_neg h1, if_neg h1]
    by_cases h2 : name = Network.messageId.toInt32
    · rw [if_pos h2, if_pos h2, if_neg fun hc => hsmall hc.1]
    rw [if_neg h2, if_neg h2, if_neg hsmall, hdata name]
    change ((∅ : Std.TreeMap Int32 Int32)[name]?.or _).getD (-1) = _
    rw [Std.TreeMap.getElem?_emptyc, Option.none_or, Message.headerInt]
    cases hget : m.headerData[name]? with
    | none => simp
    | some v =>
      have hmem := Std.TreeMap.mem_toList_iff_getElem?_eq_some.mpr hget
      have hname : name > 10 := ((hm.names _ hmem).resolve_left h1).resolve_left h2
      rw [Option.filter_some, Option.getD_some]
      by_cases hkept : v ≠ intMax ∧ name.toUInt32 < 0xFFFFFF
      · rw [if_pos (decide_eq_true ⟨hname, hkept⟩), if_pos hkept]
        rfl
      · rw [if_neg fun hc => hkept (of_decide_eq_true hc).2, if_neg hkept]
        rfl
  · refine follows_packet (by omega) hframe (by
      rw [hp, List.length_append]
      exact hmax) hfirst hdecided ?_
    rw [processPacket, hread]
    simp only
    rw [processHeader, hserv, hlast, if_neg (fun hc => absurd (hc ▸ hm.service_nonneg) (by decide)),
      if_neg hm.service_user]
    exact hdeliver

/-! ### Chunks -/

/-- A piece that fits goes to the end of the buffer. -/
theorem appendChunk_spec {r : Receiver} {data : List UInt8} {h : PacketHeader} {u : List UInt8}
    (hinside : ¬ packetLength data < h.headerSize + 2)
    (hused : r.chunkedMessageBuffer.used = some u)
    (hroom : u.length + (packetBody data h).length ≤ r.chunkedMessageBuffer.size) (last : Bool) :
    ∃ buffer : ChunkBuffer, buffer.used = some (u ++ packetBody data h) ∧
      buffer.size = r.chunkedMessageBuffer.size ∧
      r.appendChunk data h last =
        if last then { r with chunkedMessageBuffer := buffer }.finishSequence h
        else ({ r with chunkedMessageBuffer := buffer }, true) := by
  have hcapacity : (packetBody data h).length ≤ r.chunkedMessageBuffer.capacity := by
    rw [ChunkBuffer.capacity, hused, Option.getD_some]
    omega
  have happend : ∃ buffer : ChunkBuffer,
      r.chunkedMessageBuffer.append (packetBody data h) hcapacity = some buffer ∧
        buffer.used = some (u ++ packetBody data h) ∧
        buffer.size = r.chunkedMessageBuffer.size := by
    unfold ChunkBuffer.append
    split
    · rename_i hnone
      rw [hused] at hnone
      cases hnone
    · rename_i u' hu
      rw [hused] at hu
      obtain rfl := Option.some.inj hu
      exact ⟨_, rfl, rfl, rfl⟩
  obtain ⟨buffer, hsome, hcontent, hsize⟩ := happend
  refine ⟨buffer, hcontent, hsize, ?_⟩
  rw [appendChunk, if_neg hinside, dif_pos hcapacity, hsome]

/-- The first `k` chunks of the first message of the queue have been gathered. -/
def Gathered (r : Receiver) (queue : List Message) (k : ℕ) : Prop :=
  (k = 0 ∧ r.chunkedMessageId = -1 ∧ r.chunkedServiceId = -1) ∨
    ∃ m ms, queue = m :: ms ∧ 0 < k ∧ r.chunkedMessageId = chunkMessageId m ∧
      r.chunkedServiceId = m.serviceId ∧ r.chunkedMessageBuffer.size = m.body.length ∧
      r.chunkedMessageBuffer.used = some (m.body.take (chunkStart m k))

/-- Where the buffer is when the chunk with number `k` has been let in. -/
theorem startSequence_spec {m : Message} {ms : List Message} {k : ℕ} {r : Receiver} (last : Bool)
    (hm : Carried m) (hk : Gathered r (m :: ms) k) :
    ¬ r.Refuses (chunkHeaderRead m (k = 0) last) ∧
      ¬ ((chunkHeaderRead m (k = 0) last).sequenceSize ≠ -1 ∧
        ¬ 0 ≤ (chunkHeaderRead m (k = 0) last).sequenceSize) ∧
      ∃ buffer : ChunkBuffer, buffer.size = m.body.length ∧
        buffer.used = some (m.body.take (chunkStart m k)) ∧
        r.startSequence (chunkHeaderRead m (k = 0) last) = { r with
          chunkedMessageId := chunkMessageId m
          chunkedServiceId := m.serviceId
          chunkedMessageBuffer := buffer } := by
  have hsize := toInt_sequenceSize hm
  rcases hk with ⟨rfl, hid, hservice⟩ | ⟨m', ms', heq, hpos, hid, hservice, hbuffer, hused⟩
  · have hne : Int32.ofNat m.body.length ≠ -1 := by
      intro heq
      rw [heq] at hsize
      change (-1 : ℤ) = _ at hsize
      omega
    have hnonneg : 0 ≤ Int32.ofNat m.body.length := by
      rw [Int32.le_iff_toInt_le, hsize]
      exact Int.natCast_nonneg _
    have hread : (chunkHeaderRead m (decide (0 = 0)) last).sequenceSize
        = Int32.ofNat m.body.length := rfl
    have hbound : (Int32.ofNat m.body.length).toInt.toNat < 2 ^ 31 := by
      have hlt := length_body_lt hm
      omega
    refine ⟨?_, ?_, ChunkBuffer.create (Int32.ofNat m.body.length).toInt.toNat hbound, ?_, ?_, ?_⟩
    · rw [Refuses, hread, if_pos hne, hid, hservice]
      exact fun hc => hc.elim (fun h => h rfl) fun h => h rfl
    · rw [hread]
      exact fun hc => hc.2 hnonneg
    · change (Int32.ofNat m.body.length).toInt.toNat = _
      rw [hsize, Int.toNat_natCast]
    · rw [chunkStart, Nat.mul_zero, Nat.zero_min, List.take_zero]
      rfl
    · rw [startSequence, if_pos (by rw [hread]; exact hne)]
      rfl
  · obtain ⟨rfl, rfl⟩ := List.cons.inj heq
    have hfirst : decide (k = 0) = false := decide_eq_false (by omega)
    have hread : (chunkHeaderRead m (decide (k = 0)) last).sequenceSize = -1 := by
      rw [hfirst]
      rfl
    refine ⟨?_, ?_, r.chunkedMessageBuffer, hbuffer, hused, ?_⟩
    · rw [Refuses, hread, if_neg (not_not.mpr rfl)]
      exact fun hc => hc.elim (fun h => h hid) fun h => h hservice
    · rw [hread]
      exact fun hc => hc.1 rfl
    · rw [startSequence, if_neg (by rw [hread]; exact not_not.mpr rfl), ← hid, ← hservice]

/-- The pieces so far and the next one. -/
theorem take_append_chunk (m : Message) (k : ℕ) :
    m.body.take (chunkStart m k) ++ Streaming.slice m.body (chunkStart m k) (chunkStart m (k + 1))
      = m.body.take (chunkStart m (k + 1)) := by
  have hmono : chunkStart m k ≤ chunkStart m (k + 1) := by
    rw [chunkStart, chunkStart, Nat.mul_succ]
    omega
  have hfront : m.body.take (chunkStart m k)
      = (m.body.take (chunkStart m (k + 1))).take (chunkStart m k) := by
    rw [List.take_take, Nat.min_eq_left hmono]
  rw [Streaming.slice, hfront, List.take_append_drop]

/-- A message in chunks arrives with its ids only. -/
theorem carriedInt_of_large {m : Message} (hlarge : m.size > chunkSize) (name : Int32) :
    carriedInt m name = if name = Network.serviceId.toInt32 then m.serviceId
      else if name = Network.messageId.toInt32 then chunkMessageId m else -1 := by
  have hid : (if m.size > chunkSize ∧ ¬ m.messageId ≥ 0 then -1 else m.messageId)
      = chunkMessageId m := by
    rw [chunkMessageId]
    by_cases hid : m.messageId ≥ 0
    · rw [if_pos hid, if_neg fun hc => hc.2 hid]
    · rw [if_neg hid, if_pos ⟨hlarge, hid⟩]
  rw [carriedInt, hid, if_pos hlarge]

/-- **A chunk** is put behind those before it, and the last one completes the message. -/
theorem follows_chunk {m : Message} {ms : List Message} {k : ℕ} {r : Receiver} (hm : Carried m)
    (hlarge : m.size > chunkSize) (hlt : k < chunkCount m.body.length)
    (hk : Gathered r (m :: ms) k) :
    ∃ r', Follows r (chunkPacket m k).bytes r' ∧
      r'.status = r.status ∧ r'.receiveStream = r.receiveStream ∧
      ((k + 1 < chunkCount m.body.length ∧ Gathered r' (m :: ms) (k + 1) ∧
          r'.delivered = r.delivered) ∨
        (k + 1 = chunkCount m.body.length ∧ Gathered r' ms 0 ∧
          ∃ d, Arrives m d ∧ r'.delivered = r.delivered ++ [d])) := by
  obtain ⟨piece, hpiece⟩ : ∃ piece,
      piece = Streaming.slice m.body (chunkStart m k) (chunkStart m (k + 1)) := ⟨_, rfl⟩
  obtain ⟨last, hlast⟩ : ∃ last, last = decide (k + 1 = chunkCount m.body.length) := ⟨_, rfl⟩
  have hbytes : (chunkPacket m k).bytes
      = headerBytes (chunkFields m (k = 0) last) piece.length ++ piece := by
    rw [Packet.bytes, chunkPacket, ← hpiece, ← hlast, List.flatten_singleton]
  have hshort : piece.length ≤ chunkSize := by
    have hlen := length_chunkPacket m k
    rwa [chunkPacket, ← hpiece] at hlen
  have hframed := framed_chunk m (k = 0) last hshort
  have hmax := framed_header_iff.mp hframed
  rw [chunkFields_eq] at hmax
  obtain ⟨hread, hdecided, hdrop, hsize⟩ :=
    readHeader_headerBytes _ _ (hm.headerField_chunkIds (k = 0) last) hmax
  rw [← chunkFields_eq] at hread hdecided hdrop hsize
  rw [foldl_chunkIds] at hread
  obtain ⟨-, hframe, -⟩ := hframed
  have hfirst : (headerBytes (chunkFields m (k = 0) last) piece.length ++ piece).getD 2 0 = 8 := by
    rw [chunkFields, List.append_assoc, List.append_assoc, List.singleton_append]
    exact getD_two_headerBytes hm.service_nonneg _ _ _
  have hlong : 2 ≤ (wires (chunkFields m (k = 0) last)).length := by
    have hcount : 2 ≤ (chunkFields m (k = 0) last).length := by
      rw [chunkFields_eq, chunkIds, List.length_append, List.length_append, List.length_append,
        List.length_append, List.length_singleton, List.length_singleton]
      omega
    exact hcount.trans (length_le_wires _)
  obtain ⟨p, hp⟩ : ∃ p, p = headerBytes (chunkFields m (k = 0) last) piece.length ++ piece :=
    ⟨_, rfl⟩
  rw [← hp] at hread hframe hdecided hdrop hsize hfirst hbytes
  have hmaxp : p.length ≤ maxMessageSize := by
    rw [← chunkFields_eq] at hmax
    rw [hp, List.length_append]
    exact hmax
  have hlength : packetLength (p ++ [0, 0]) = p.length := by
    rw [packetLength_append (by omega), hframe]
  have hbody : packetBody (p ++ [0, 0]) (chunkHeaderRead m (k = 0) last) = piece := by
    rw [packetBody, hlength, List.take_left]
    exact hdrop
  have hinside : ¬ packetLength (p ++ [0, 0])
      < (chunkHeaderRead m (k = 0) last).headerSize + 2 := by
    rw [hlength]
    change ¬ p.length < (wires (chunkFields m (k = 0) last)).length + 2
    omega
  obtain ⟨hrefuses, hnonneg, buffer, hsizeBuffer, hused, hstart⟩ :=
    startSequence_spec last (r := { r with firstPacket := false }) hm hk
  have hjoin := take_append_chunk m k
  rw [← hpiece] at hjoin
  obtain ⟨buffer', hused', hsize', happend⟩ := appendChunk_spec
    (r := { r with
      firstPacket := false
      chunkedMessageId := chunkMessageId m
      chunkedServiceId := m.serviceId
      chunkedMessageBuffer := buffer }) hinside hused (by
      have hjoined := congrArg List.length hjoin
      rw [List.length_append] at hjoined
      change _ ≤ buffer.size
      rw [hbody, hjoined, hsizeBuffer, List.length_take]
      exact min_le_right _ _) last
  rw [hbody, hjoin] at hused'
  have hproc : { r with firstPacket := false }.processPacket (p ++ [0, 0])
      = ({ r with
          firstPacket := false
          chunkedMessageId := chunkMessageId m
          chunkedServiceId := m.serviceId
          chunkedMessageBuffer := buffer } : Receiver).appendChunk (p ++ [0, 0])
            (chunkHeaderRead m (k = 0) last) last := by
    rw [processPacket, hread]
    simp only
    have hservice : (chunkHeaderRead m (k = 0) last).serviceId = m.serviceId := rfl
    have hsequence : (chunkHeaderRead m (k = 0) last).lastInSequence = some last := rfl
    rw [processHeader, hservice, hsequence,
      if_neg (fun hc => absurd (hc ▸ hm.service_nonneg) (by decide)), if_neg hm.service_user]
    simp only
    rw [processChunk, if_neg hrefuses, if_neg hnonneg, hstart]
  rw [happend] at hproc
  rw [hbytes]
  by_cases hdone : k + 1 = chunkCount m.body.length
  · have htrue : last = true := by
      rw [hlast]
      exact decide_eq_true hdone
    rw [htrue, if_pos rfl, finishSequence] at hproc
    obtain ⟨m', hdeliver, hbody', hints⟩ := deliver_spec
      ({ r with
        firstPacket := false
        chunkedMessageId := -1
        chunkedServiceId := -1
        chunkedMessageBuffer := buffer'.clear } : Receiver)
      ⟨Message.ofPayload buffer'.commit m.serviceId (-1), 0⟩
      (h := chunkHeaderRead m (k = 0) true) (fun n v hn => by
        change (∅ : Std.TreeMap Int32 Int32)[n]? = some v at hn
        rw [Std.TreeMap.getElem?_emptyc] at hn
        cases hn)
    rw [hdeliver] at hproc
    refine ⟨_, follows_packet (by omega) hframe hmaxp hfirst hdecided hproc, rfl, rfl,
      .inr ⟨hdone, .inl ⟨rfl, rfl, rfl⟩, _, ⟨?_, rfl, fun name => ?_⟩, rfl⟩⟩
    · rw [hbody']
      change (buffer'.used.getD []).drop 0 = _
      rw [hused', chunkStart_of_le hdone.ge, List.take_length]
      rfl
    · rw [hints name, carriedInt_of_large hlarge]
      by_cases h1 : name = Network.serviceId.toInt32
      · rw [if_pos h1, if_pos h1]
        rfl
      rw [if_neg h1, if_neg h1]
      by_cases h2 : name = Network.messageId.toInt32
      · rw [if_pos h2, if_pos h2]
        rfl
      · rw [if_neg h2, if_neg h2, Message.ofPayload,
          Message.headerData_setMessageId, if_neg h2, Message.headerData_setServiceId, if_neg h1]
        rfl
  · have hfalse : last = false := by
      rw [hlast]
      exact decide_eq_false hdone
    rw [hfalse, if_neg (by decide)] at hproc
    exact ⟨_, follows_packet (by omega) hframe hmaxp hfirst hdecided hproc, rfl, rfl,
      .inl ⟨by omega, .inr ⟨m, ms, rfl, Nat.succ_pos k, rfl, rfl, hsize'.trans hsizeBuffer, hused'⟩,
        rfl⟩⟩

/-! ### Messages -/

/-- **The chunks of a message** from number `k` on, `n` of them. -/
theorem follows_chunks {m : Message} {ms : List Message} (hm : Carried m)
    (hlarge : m.size > chunkSize) : ∀ {n k : ℕ} {r : Receiver},
    k + n ≤ chunkCount m.body.length → k < chunkCount m.body.length → Gathered r (m :: ms) k →
    ∃ r', Follows r (((List.range' k n).map (chunkPacket m)).flatMap Packet.bytes) r' ∧
      r'.status = r.status ∧ r'.receiveStream = r.receiveStream ∧
      ((k + n < chunkCount m.body.length ∧ Gathered r' (m :: ms) (k + n) ∧
          r'.delivered = r.delivered) ∨
        (k + n = chunkCount m.body.length ∧ Gathered r' ms 0 ∧
          ∃ d, Arrives m d ∧ r'.delivered = r.delivered ++ [d])) := by
  intro n
  induction n with
  | zero =>
    intro k r _ hlt hk
    exact ⟨r, Follows.refl r, rfl, rfl, .inl ⟨hlt, hk, rfl⟩⟩
  | succ n ih =>
    intro k r hle hlt hk
    obtain ⟨r₁, hfollows, hstatus, hstream, hcase⟩ := follows_chunk hm hlarge hlt hk
    rw [List.range'_succ, List.map_cons, List.flatMap_cons]
    rcases hcase with ⟨hmore, hk₁, hdelivered⟩ | ⟨hdone, hk₁, d, harrives, hdelivered⟩
    · obtain ⟨r₂, hfollows₂, hstatus₂, hstream₂, hcase₂⟩ := ih (by omega) hmore hk₁
      refine ⟨r₂, hfollows.trans hfollows₂, hstatus₂.trans hstatus, hstream₂.trans hstream, ?_⟩
      rw [hdelivered, show k + 1 + n = k + (n + 1) from by omega] at hcase₂
      exact hcase₂
    · obtain rfl : n = 0 := by omega
      refine ⟨r₁, ?_, hstatus, hstream, .inr ⟨hdone, hk₁, d, harrives, hdelivered⟩⟩
      rw [List.range'_zero, List.map_nil, List.flatMap_nil, List.append_nil]
      exact hfollows

/-- Messages that go out in one packet each. -/
theorem follows_smalls : ∀ {ms : List Message} {r : Receiver},
    (∀ m ∈ ms, Carried m ∧ ¬ m.size > chunkSize) →
    ∃ r' ds, Follows r ((ms.flatMap packets).flatMap Packet.bytes) r' ∧
      r'.status = r.status ∧ r'.receiveStream = r.receiveStream ∧
      (∀ queue k, Gathered r queue k → Gathered r' queue k) ∧
      List.Forall₂ Arrives ms ds ∧ r'.delivered = r.delivered ++ ds := by
  intro ms
  induction ms with
  | nil =>
    intro r _
    exact ⟨r, [], Follows.refl r, rfl, rfl, fun _ _ => id, .nil, (List.append_nil _).symm⟩
  | cons m ms ih =>
    intro r hms
    obtain ⟨hm, hsmall⟩ := hms m List.mem_cons_self
    obtain ⟨d, harrives, hfollows⟩ := follows_small hm hsmall r
    obtain ⟨r', ds, hfollows', hstatus, hstream, hgathered, hall, hdelivered⟩ :=
      ih (r := { r with firstPacket := false, delivered := r.delivered ++ [d] })
        fun x hx => hms x (List.mem_cons_of_mem m hx)
    refine ⟨r', d :: ds, ?_, hstatus, hstream, fun queue k hk => hgathered queue k hk,
      .cons harrives hall, ?_⟩
    · rw [List.flatMap_cons, List.flatMap_append]
      exact hfollows.trans hfollows'
    · rw [hdelivered, List.append_assoc]
      rfl

/-- What is left of the first message of the queue. -/
theorem follows_rest {m : Message} {ms : List Message} {k bytesSend : ℕ} {r : Receiver}
    (hm : Carried m) (hat : AtPacket (m :: ms) k bytesSend) (hk : Gathered r (m :: ms) k) :
    k ≤ (packets m).length ∧ ∃ r' d, Arrives m d ∧
      Follows r (((packets m).drop k).flatMap Packet.bytes) r' ∧
      r'.status = r.status ∧ r'.receiveStream = r.receiveStream ∧ Gathered r' ms 0 ∧
      r'.delivered = r.delivered ++ [d] := by
  by_cases hlarge : m.size > chunkSize
  · obtain ⟨hlt, -, -⟩ := hat.of_large hlarge (body_length_of_noHeader hm.noHeader)
    have hdrop : (packets m).drop k
        = (List.range' k (chunkCount m.body.length - k)).map (chunkPacket m) := by
      rw [packets_of_large hlarge, ← List.map_drop, List.range_eq_range', List.drop_range',
        Nat.mul_one, Nat.zero_add]
    obtain ⟨r', hfollows, hstatus, hstream, hcase⟩ := follows_chunks (n := chunkCount m.body.length - k)
      hm hlarge (by omega) hlt hk
    refine ⟨?_, ?_⟩
    · rw [packets_of_large hlarge, List.length_map, List.length_range]
      exact hlt.le
    · rcases hcase with ⟨hless, -, -⟩ | ⟨-, hk', d, harrives, hdelivered⟩
      · omega
      · rw [hdrop]
        exact ⟨r', d, harrives, hfollows, hstatus, hstream, hk', hdelivered⟩
  · obtain ⟨rfl, -⟩ : k = 0 ∧ bytesSend = 0 := by
      rcases hat with h0 | ⟨m', ms', heq, hlarge', -⟩
      · exact h0
      · obtain ⟨rfl, -⟩ := List.cons.inj heq
        exact absurd hlarge' hlarge
    obtain ⟨d, harrives, hfollows⟩ := follows_small hm hlarge r
    refine ⟨Nat.zero_le _, _, d, harrives, hfollows, rfl, rfl, .inl ⟨rfl, ?_⟩, rfl⟩
    rcases hk with ⟨-, hids⟩ | ⟨_, _, _, hpos, -⟩
    · exact hids
    · exact absurd hpos (lt_irrefl 0)

/-- **The next packets of a queue**: those that complete the messages `finished`, and the first of the
message behind them. -/
theorem follows_queue {left : List Message} {k' bytesSend' : ℕ}
    (hat' : AtPacket left k' bytesSend') : ∀ {finished : List Message} {k bytesSend : ℕ}
    {sent : List Packet} {r : Receiver}, (∀ m ∈ finished ++ left, Carried m) →
    AtPacket (finished ++ left) k bytesSend → Gathered r (finished ++ left) k →
    finished.flatMap packets ++ (left.flatMap packets).take k'
      = ((finished ++ left).flatMap packets).take k ++ sent →
    ∃ r' ds, Follows r (sent.flatMap Packet.bytes) r' ∧
      r'.status = r.status ∧ r'.receiveStream = r.receiveStream ∧ Gathered r' left k' ∧
      List.Forall₂ Arrives finished ds ∧ r'.delivered = r.delivered ++ ds := by
  intro finished
  induction finished with
  | nil =>
    intro k bytesSend sent r hcarried hat hk heq
    rw [List.flatMap_nil, List.nil_append, List.nil_append] at heq
    have hlen := congrArg List.length heq
    rw [List.length_append] at hlen
    rcases hat' with ⟨rfl, -⟩ | ⟨m, ms, rfl, hlarge, hpos, hlt, -⟩
    · -- nothing of the message behind is sent
      rw [List.take_zero] at heq
      obtain ⟨htake, rfl⟩ := List.append_eq_nil_iff.mp heq.symm
      obtain rfl : k = 0 := by
        rcases hat with ⟨rfl, -⟩ | ⟨m, ms, hleft, hlarge, hpos, hlt, -⟩
        · rfl
        · rw [List.nil_append] at hleft
          rw [hleft, List.flatMap_cons] at htake
          have hzero := congrArg List.length htake
          rw [List.length_take, List.length_append, packets_of_large hlarge, List.length_map,
            List.length_range, List.length_nil] at hzero
          omega
      exact ⟨r, [], Follows.refl r, rfl, rfl, hk, .nil, (List.append_nil _).symm⟩
    · have hm := hcarried m (List.mem_cons_self)
      obtain ⟨hltk, -, -⟩ := AtPacket.of_large hat hlarge (body_length_of_noHeader hm.noHeader)
      have hcount : (packets m).length = chunkCount m.body.length := by
        rw [packets_of_large hlarge, List.length_map, List.length_range]
      rw [List.flatMap_cons, List.take_append_of_le_length (by omega),
        List.take_append_of_le_length (by omega)] at heq
      have hkk : k ≤ k' := by
        have hlen' := congrArg List.length heq
        rw [List.length_append, List.length_take, List.length_take] at hlen'
        omega
      rw [take_packets_append hlarge hkk hlt.le] at heq
      obtain rfl := List.append_cancel_left heq
      obtain ⟨r', hfollows, hstatus, hstream, hcase⟩ := follows_chunks (n := k' - k) hm hlarge
        (by omega) hltk hk
      rw [Nat.add_sub_cancel' hkk] at hcase
      rcases hcase with ⟨-, hk', hdelivered⟩ | ⟨hdone, -⟩
      · exact ⟨r', [], hfollows, hstatus, hstream, hk', .nil, by
          rw [hdelivered, List.append_nil]⟩
      · omega
  | cons m finished ih =>
    intro k bytesSend sent r hcarried hat hk heq
    have hm := hcarried m List.mem_cons_self
    obtain ⟨hle, r₁, d, harrives, hfollows, hstatus, hstream, hk₁, hdelivered⟩ :=
      follows_rest hm hat hk
    obtain ⟨sent', hsent'⟩ : ∃ sent', sent'
      = finished.flatMap packets ++ (left.flatMap packets).take k' := ⟨_, rfl⟩
    have hsplit : sent = (packets m).drop k ++ sent' := by
      rw [List.cons_append, List.flatMap_cons, List.flatMap_cons, List.append_assoc, ← hsent',
        List.take_append_of_le_length hle] at heq
      have hcancel : (packets m).take k ++ sent
          = (packets m).take k ++ ((packets m).drop k ++ sent') := by
        rw [← heq, ← List.append_assoc, List.take_append_drop]
      exact List.append_cancel_left hcancel
    obtain ⟨r', ds, hfollows', hstatus', hstream', hk', hall, hdelivered'⟩ :=
      @ih 0 0 sent' r₁ (fun x hx => hcarried x (List.mem_cons_of_mem m hx))
        AtPacket.zero hk₁ (by rw [List.take_zero, List.nil_append, hsent'])
    refine ⟨r', d :: ds, ?_, hstatus'.trans hstatus, hstream'.trans hstream, hk',
      .cons harrives hall, ?_⟩
    · rw [hsplit, List.flatMap_append]
      exact hfollows.trans hfollows'
    · rw [hdelivered', hdelivered, List.append_assoc]
      rfl

end Receiver

/-! ## The size of a round -/

section Budget

variable {grow : ℕ → ℕ}

/-- The last packet may be too much, but no more. -/
def Within (r : Round) : Prop := -(maxMessageSize : ℤ) ≤ r.bytesLeft

theorem length_packet_le {m : Message} (hm : Carried m) {p : Packet} (hp : p ∈ packets m) :
    p.bytes.length ≤ maxMessageSize := by
  have hall := ((sentFramed_iff m).mpr hm.fits).2
  have hemitted : emitted m = packets m := by
    rw [emitted, if_neg]
    rintro ⟨-, -, hservice⟩
    exact absurd hservice (Int32.not_lt.mpr hm.service_nonneg)
  rw [hemitted] at hall
  exact (hall p hp).2.2

theorem within_pushMessage {m : Message} {r r' : Round} (hm : Carried m)
    (hsmall : ¬ m.size > chunkSize) (hr : 0 < r.bytesLeft)
    (h : pushMessage grow m r = some r') : Within r' := by
  have hleft := (pushMessage_spec hsmall h).bytesLeft
  have hone : packets m = [⟨[simpleHeader m], m.rawData.bytes⟩] := by
    rw [packets, if_neg hsmall, if_neg (by rw [hm.noHeader]; decide)]
  have hle := length_packet_le hm (p := ⟨[simpleHeader m], m.rawData.bytes⟩)
    (by rw [hone]; exact List.mem_singleton_self _)
  rw [hone, List.flatMap_singleton] at hleft
  rw [Within, hleft]
  omega

theorem within_chunkLoop {m : Message} : ∀ {rounds start stop : ℕ} {first : Bool}
    {kept : Option (List UInt8)} {r r' : Round}, MiddleHeader m kept → 0 < r.bytesLeft →
    chunkLoop grow m rounds start first kept r = some (stop, r') → Within r' := by
  intro rounds
  induction rounds with
  | zero =>
    intro start stop first kept r r' _ hr h
    rw [chunkLoop] at h
    obtain ⟨-, rfl⟩ := Prod.mk.inj (Option.some.inj h)
    rw [Within]
    omega
  | succ rounds ih =>
    intro start stop first kept r r' hkept hr h
    rw [chunkLoop] at h
    by_cases hlt : start < m.body.length
    · rw [if_pos hlt] at h
      simp only [Option.bind_eq_bind, Option.bind_eq_some_iff] at h
      obtain ⟨⟨header, kept', helper⟩, hheader, h⟩ := h
      obtain ⟨p, hp⟩ : ∃ p, p = min (start + chunkSize) m.body.length := ⟨_, rfl⟩
      rw [← hp] at hheader h
      have hchunk : (Streaming.slice m.body start p).length ≤ chunkSize := by
        rw [Streaming.slice, List.length_drop, List.length_take]
        omega
      obtain ⟨rfl, hkept'⟩ := headerOfChunk_spec hkept (fun hno => by
        rw [decide_eq_false_iff_not] at hno
        rw [Streaming.slice, List.length_drop, List.length_take]
        omega) hheader
      have hframed := framed_header_iff.mp (framed_chunk m first (decide (p = m.body.length)) hchunk)
      simp only at h
      split_ifs at h with hfull
      · obtain ⟨-, rfl⟩ := Prod.mk.inj (Option.some.inj h)
        rw [Within]
        simp only
        omega
      · by_cases hlast : p = m.body.length
        · rw [chunkLoop_of_le hlast.ge] at h
          obtain ⟨-, rfl⟩ := Prod.mk.inj (Option.some.inj h)
          rw [Within]
          simp only
          omega
        · exact ih (hkept' (decide_eq_false hlast)) (Int.not_le.mp hfull) h
    · rw [if_neg hlt] at h
      obtain ⟨-, rfl⟩ := Prod.mk.inj (Option.some.inj h)
      rw [Within]
      omega

theorem within_messageLoop : ∀ {queue finished : List Message} {bytesSend bytesSend' : ℕ}
    {r r' : Round}, (∀ m ∈ queue, Carried m) → Within r →
    messageLoop grow queue bytesSend r = some (finished, bytesSend', r') → Within r' := by
  intro queue
  induction queue with
  | nil =>
    intro finished bytesSend bytesSend' r r' _ hr h
    rw [messageLoop] at h
    obtain ⟨-, -, rfl⟩ : [] = finished ∧ bytesSend = bytesSend' ∧ r = r' := by simpa using h
    exact hr
  | cons m ms ih =>
    intro finished bytesSend bytesSend' r r' hcarried hr h
    rw [messageLoop] at h
    by_cases hfull : r.bytesLeft ≤ 0
    · rw [if_pos hfull] at h
      obtain ⟨-, -, rfl⟩ : [] = finished ∧ bytesSend = bytesSend' ∧ r = r' := by simpa using h
      exact hr
    rw [if_neg hfull] at h
    have hrest : ∀ x ∈ ms, Carried x := fun x hx => hcarried x (List.mem_cons_of_mem m hx)
    by_cases hlarge : m.size > chunkSize
    · rw [if_pos hlarge] at h
      simp only [Option.bind_eq_bind, Option.bind_eq_some_iff] at h
      obtain ⟨_, -, ⟨stop, mid⟩, hchunks, ⟨fin, bytesSend₁, r₁⟩, hloop, h⟩ := h
      simp only [Option.some.injEq, Prod.mk.injEq] at h
      obtain ⟨-, -, rfl⟩ := h
      exact ih hrest (within_chunkLoop (by rintro header ⟨⟩) (Int.not_le.mp hfull) hchunks) hloop
    · rw [if_neg hlarge] at h
      simp only [Option.bind_eq_bind, Option.bind_eq_some_iff] at h
      obtain ⟨mid, hpush, ⟨fin, bytesSend₁, r₁⟩, hloop, h⟩ := h
      simp only [Option.some.injEq, Prod.mk.injEq] at h
      obtain ⟨-, -, rfl⟩ := h
      exact ih hrest (within_pushMessage (hcarried m List.mem_cons_self) hlarge
        (Int.not_le.mp hfull) hpush) hloop

theorem within_priorityLoop : ∀ {queue sent left : List Message} {r r' : Round},
    (∀ m ∈ queue, Carried m ∧ ¬ m.size > chunkSize) → 0 < r.bytesLeft →
    priorityLoop grow queue r = some (sent, left, r') → Within r' := by
  intro queue
  induction queue with
  | nil =>
    intro sent left r r' _ hr h
    rw [priorityLoop] at h
    obtain ⟨-, -, rfl⟩ : [] = sent ∧ [] = left ∧ r = r' := by simpa using h
    rw [Within]
    omega
  | cons m ms ih =>
    intro sent left r r' hall hr h
    rw [priorityLoop] at h
    simp only [Option.bind_eq_bind, Option.bind_eq_some_iff] at h
    obtain ⟨mid, hpush, h⟩ := h
    obtain ⟨hm, hsmall⟩ := hall m List.mem_cons_self
    by_cases hfull : mid.bytesLeft ≤ 0
    · rw [if_pos hfull] at h
      obtain ⟨-, -, rfl⟩ : [m] = sent ∧ ms = left ∧ mid = r' := by simpa using h
      exact within_pushMessage hm hsmall hr hpush
    · rw [if_neg hfull] at h
      simp only [Option.bind_eq_some_iff] at h
      obtain ⟨⟨sent', left', r₁⟩, hloop, h⟩ := h
      obtain ⟨-, -, rfl⟩ : m :: sent' = sent ∧ left' = left ∧ r₁ = r' := by simpa using h
      exact ih (fun x hx => hall x (List.mem_cons_of_mem m hx)) (Int.not_le.mp hfull) hloop

end Budget

/-! ## Runs -/

namespace Delivers

theorem append_priority {ps ns : List Message} {ds : List Delivery} (h : Delivers ps ns ds) :
    ∀ {ms : List Message} {ms' : List Delivery}, List.Forall₂ Arrives ms ms' →
    Delivers (ps ++ ms) ns (ds ++ ms') := by
  intro ms ms' hall
  induction hall generalizing ps ds with
  | nil =>
    rw [List.append_nil, List.append_nil]
    exact h
  | cons harrives _ ih =>
    have hrest := ih (h.priority harrives)
    rw [List.append_assoc, List.append_assoc] at hrest
    exact hrest

theorem append_normal {ps ns : List Message} {ds : List Delivery} (h : Delivers ps ns ds) :
    ∀ {ms : List Message} {ms' : List Delivery}, List.Forall₂ Arrives ms ms' →
    Delivers ps (ns ++ ms) (ds ++ ms') := by
  intro ms ms' hall
  induction hall generalizing ns ds with
  | nil =>
    rw [List.append_nil, List.append_nil]
    exact h
  | cons harrives _ ih =>
    have hrest := ih (h.normal harrives)
    rw [List.append_assoc, List.append_assoc] at hrest
    exact hrest

end Delivers

namespace Sender

open Receiver (Follows Gathered)

/-- A connection with its history, and the bytes of the writes that have succeeded. -/
structure Transfer where
  history : History
  stream : List UInt8

namespace Transfer

/-- A new connection. -/
def create : Transfer := ⟨History.create, []⟩

/-- The bytes that an event adds to the stream. -/
def written (l : History) : WriteEvent → List UInt8
  | .writeDone => l.sender.inFlight.elim [] Handed.bytes
  | _ => []

/-- One event; `none` is a failed assertion. -/
def step (grow : ℕ → ℕ) (t : Transfer) (e : WriteEvent) : Option Transfer :=
  (t.history.step grow e).map fun l => ⟨l, t.stream ++ written t.history e⟩

/-- The messages that are queued are carried, and no write fails. -/
def Carries : WriteEvent → Prop
  | .queueMessage m _ => Carried m
  | .runMessageQueue => True
  | .writeDone => True
  | .writeFailed => False

/-- A write that goes on takes the reader from `r` to where the connection will be. -/
def OnTheLine (r : Receiver) (s : Sender) (handed : Handed) : Prop :=
  s.messageBytesSent < 2 ^ 30 ∧ handed.bytes.length ≤ 250 * 1024 + maxMessageSize ∧
    ∃ r' dp dn left k, Follows r handed.bytes r' ∧ r'.status = r.status ∧
      r'.receiveStream = r.receiveStream ∧ List.Forall₂ Arrives handed.priority dp ∧
      List.Forall₂ Arrives handed.finished dn ∧ r'.delivered = r.delivered ++ dp ++ dn ∧
      s.messageQueue = handed.finished ++ left ∧ AtPacket left k s.messageBytesSend ∧
      Gathered r' left k

/-- What holds in every state of a run: the reader has been handed what was written, and has gathered what
has been written of the first message of the queue. -/
structure Linked (start : Receiver) (t : Transfer) : Prop where
  kept : t.history.Kept
  priority : ∀ m ∈ t.history.sender.priorityMessageQueue, Carried m
  normal : ∀ m ∈ t.history.sender.messageQueue, Carried m
  headers : ∀ x ∈ t.history.sender.sendQHeaders, x.length ≤ maxMessageSize
  reader : ∃ r, Follows start t.stream r ∧ r.status = start.status ∧
    r.receiveStream = start.receiveStream ∧
    Delivers t.history.writtenPriority t.history.writtenNormal r.delivered ∧
    (t.history.sender.inFlight = none → ∃ k,
      AtPacket t.history.sender.messageQueue k t.history.sender.messageBytesSend ∧
        Gathered r t.history.sender.messageQueue k) ∧
    ∀ handed ∈ t.history.sender.inFlight, OnTheLine r t.history.sender handed

variable {start : Receiver} {t t' : Transfer} {grow : ℕ → ℕ}

theorem linked_create (isOutgoing : Bool) : Linked (Receiver.create isOutgoing) create where
  kept := History.kept_create
  priority := fun _ hm => absurd hm List.not_mem_nil
  normal := fun _ hm => absurd hm List.not_mem_nil
  headers := fun _ hx => absurd hx List.not_mem_nil
  reader := ⟨Receiver.create isOutgoing, Follows.refl _, rfl, rfl, .nil,
    fun _ => ⟨0, AtPacket.zero, .inl ⟨rfl, rfl, rfl⟩⟩, fun _ hin => nomatch hin⟩

/-! ### The counter of bytes -/

theorem totalLength_le {n : ℕ} : ∀ {hs : List (List UInt8)}, (∀ x ∈ hs, x.length ≤ n) →
    totalLength hs ≤ hs.length * n := by
  intro hs
  induction hs with
  | nil =>
    intro _
    exact Nat.zero_le _
  | cons x hs ih =>
    intro hall
    have hx := hall x List.mem_cons_self
    have hrest := ih fun y hy => hall y (List.mem_cons_of_mem x hy)
    rw [List.length_cons, Nat.succ_mul]
    change x.length + totalLength hs ≤ _
    omega

/-- Between two writes the counter is that of a part of one message. -/
theorem Linked.messageBytesSent_lt (h : Linked start t) (hno : t.history.sender.inFlight = none) :
    t.history.sender.messageBytesSent < 2 ^ 30 := by
  obtain ⟨-, -, -, k, hat, hlen, hbytes, -⟩ := h.kept.idle hno
  have htotal := totalLength_le h.headers
  rw [hlen, maxMessageSize] at htotal
  rw [hbytes]
  rcases hat with ⟨rfl, hzero⟩ | ⟨m, ms, hqueue, -, -, hlt, hsend⟩
  · omega
  · have hm : Carried m := h.normal m (by
      rw [hqueue]
      exact List.mem_cons_self)
    have hbody := length_body_lt hm
    have hstart : chunkStart m k ≤ m.body.length := min_le_right _ _
    have hchunks := lt_chunkCount_iff.mp hlt
    rw [chunkSize] at hchunks
    omega

/-- The events of the run are careful. -/
theorem Linked.careful (h : Linked start t) {e : WriteEvent} (he : Carries e) :
    t.history.Careful e := by
  cases e with
  | queueMessage m priority => exact fun _ => exactCount_of_lt he.size_lt
  | runMessageQueue => trivial
  | writeDone =>
    intro handed hin
    obtain ⟨r, -, -, -, -, -, hline⟩ := h.reader
    obtain ⟨hsent, hbytes, -⟩ := hline handed hin
    rw [maxMessageSize] at hbytes
    omega
  | writeFailed => exact he.elim

/-! ### Events -/

/-- One message takes headers off the front, or none. -/
theorem removeMessage_suffix {m : Message} {headers headers' : List (List UInt8)}
    {bytesLeft bytesLeft' : ℤ} {removed : Bool}
    (h : removeMessage m headers bytesLeft = some (removed, headers', bytesLeft')) :
    headers' <:+ headers := by
  unfold removeMessage at h
  split_ifs at h
  · obtain ⟨-, rfl, -⟩ : false = removed ∧ headers = headers' ∧ bytesLeft = bytesLeft' := by
      simpa using h
    exact List.suffix_refl headers
  · simp only [Option.some.injEq, Prod.mk.injEq] at h
    rw [← h.2.1]
  · simp only [Option.some.injEq, Prod.mk.injEq] at h
    rw [← h.2.1]
    exact List.drop_suffix _ headers
  · cases headers with
    | nil => cases h
    | cons header headers =>
      simp only at h
      split_ifs at h
      · simp only [Option.some.injEq, Prod.mk.injEq] at h
        rw [← h.2.1]
      · simp only [Option.some.injEq, Prod.mk.injEq] at h
        rw [← h.2.1]
        exact List.suffix_cons header headers
  · simp only [Option.some.injEq, Prod.mk.injEq] at h
    rw [← h.2.1]
  · simp only [Option.some.injEq, Prod.mk.injEq] at h
    rw [← h.2.1]

theorem removeWritten_suffix : ∀ {ms : List Message} {headers headers' : List (List UInt8)}
    {bytesLeft bytesLeft' : ℤ} {n : ℕ},
    removeWritten ms headers bytesLeft = some (n, headers', bytesLeft') → headers' <:+ headers := by
  intro ms
  induction ms with
  | nil =>
    intro headers headers' bytesLeft bytesLeft' n h
    rw [removeWritten] at h
    obtain ⟨-, rfl, -⟩ : 0 = n ∧ headers = headers' ∧ bytesLeft = bytesLeft' := by simpa using h
    exact List.suffix_refl headers
  | cons m ms ih =>
    intro headers headers' bytesLeft bytesLeft' n h
    rw [removeWritten, Option.bind_eq_bind, Option.bind_eq_some_iff] at h
    obtain ⟨⟨removed, headers₁, bytesLeft₁⟩, hone, h⟩ := h
    have hfirst := removeMessage_suffix hone
    simp only at h
    split_ifs at h
    · simp only [Option.some.injEq, Prod.mk.injEq] at h
      rw [← h.2.1]
      exact hfirst
    · simp only [Option.some.injEq, Prod.mk.injEq] at h
      rw [← h.2.1]
      exact hfirst
    · rw [Option.bind_eq_bind, Option.bind_eq_some_iff] at h
      obtain ⟨⟨k, headers₂, bytesLeft₂⟩, hrest, h⟩ := h
      simp only [Option.some.injEq, Prod.mk.injEq] at h
      rw [← h.2.1]
      exact (ih hrest).trans hfirst

theorem gathered_append {r : Receiver} {queue : List Message} {k : ℕ} (h : Gathered r queue k)
    (more : List Message) : Gathered r (queue ++ more) k := by
  rcases h with h0 | ⟨m, ms, rfl, hrest⟩
  · exact .inl h0
  · exact .inr ⟨m, ms ++ more, rfl, hrest⟩

/-- A message is queued. -/
theorem Linked.queueMessage (h : Linked start t) {m : Message} (hm : Carried m)
    (priority : MessagePriority) (stream : List UInt8) (hstream : stream = t.stream) :
    Linked start ⟨t.history.queueMessage m priority, stream⟩ := by
  subst hstream
  have hkept : (t.history.queueMessage m priority).Kept :=
    h.kept.queueMessage fun _ => exactCount_of_lt hm.size_lt
  obtain ⟨r, hfollows, hstatus, hread, hdelivers, hidle, hline⟩ := h.reader
  revert hkept
  unfold History.queueMessage Sender.queueMessage
  by_cases haccepts : Accepts m priority
  · cases priority with
    | normalPriority =>
      simp only [if_pos haccepts]
      intro hkept
      refine ⟨hkept, h.priority, fun x hx => ?_, h.headers,
        r, hfollows, hstatus, hread, hdelivers, fun hno => ?_, fun handed hin => ?_⟩
      · rcases List.mem_append.mp hx with hx | hx
        · exact h.normal x hx
        · rw [List.mem_singleton.mp hx]
          exact hm
      · obtain ⟨k, hat, hgathered⟩ := hidle hno
        exact ⟨k, History.atPacket_append hat [m], gathered_append hgathered [m]⟩
      · obtain ⟨hsent, hbytes, r', dp, dn, left, k, hnext, hstatus', hread', hp, hn, hd, hqueue, hat,
          hgathered⟩ := hline handed hin
        refine ⟨hsent, hbytes, r', dp, dn, left ++ [m], k, hnext, hstatus', hread', hp, hn, hd, ?_,
          History.atPacket_append hat [m], gathered_append hgathered [m]⟩
        change t.history.sender.messageQueue ++ [m] = _
        rw [hqueue, List.append_assoc]
    | highPriority =>
      simp only [if_pos haccepts]
      intro hkept
      refine ⟨hkept, fun x hx => ?_, h.normal, h.headers,
        r, hfollows, hstatus, hread, hdelivers, hidle, hline⟩
      rcases List.mem_append.mp hx with hx | hx
      · exact h.priority x hx
      · rw [List.mem_singleton.mp hx]
        exact hm
  · simp only [if_neg haccepts]
    intro _
    exact h

/-- **A round** puts its packets on the line. -/
theorem Linked.runMessageQueue (h : Linked start t) {s : Sender}
    (hrun : t.history.sender.runMessageQueue grow = some s) (stream : List UInt8)
    (hstream : stream = t.stream) : Linked start ⟨{ t.history with sender := s }, stream⟩ := by
  subst hstream
  have hkept := h.kept.runMessageQueue hrun
  obtain rfl | ⟨hnone, -, sentPriority, leftPriority, mid, finished, bytesSend, round, hpriority,
    hmessages, rfl⟩ := Sender.runMessageQueue_cases hrun
  · exact h
  have hsentBytes := h.messageBytesSent_lt hnone
  obtain ⟨r, hfollows, hstatus, hread, hdelivers, hidle, -⟩ := h.reader
  obtain ⟨k, hat, hgathered⟩ := hidle hnone
  obtain ⟨hsplit, hext, -, -⟩ := priorityLoop_spec h.kept.small hpriority
  obtain ⟨left, k', sent, hqueue, hat', hext', hpackets, -, -, -⟩ := messageLoop_spec hat hmessages
  have hall := hext.trans hext'
  have hsmalls : ∀ m ∈ t.history.sender.priorityMessageQueue,
      Carried m ∧ ¬ m.size > chunkSize := fun m hm => ⟨h.priority m hm, h.kept.small m hm⟩
  have hpriorities : ∀ m ∈ sentPriority, Carried m ∧ ¬ m.size > chunkSize := fun m hm =>
    hsmalls m (hsplit ▸ List.mem_append_left _ hm)
  -- the reader follows both loops
  obtain ⟨r₁, dp, hfollows₁, hstatus₁, hread₁, hgathered₁, hp, hd₁⟩ :=
    Receiver.follows_smalls (r := r) hpriorities
  rw [hqueue] at hat hgathered hpackets
  obtain ⟨r₂, dn, hfollows₂, hstatus₂, hread₂, hgathered₂, hn, hd₂⟩ :=
    Receiver.follows_queue hat' (fun m hm => h.normal m (hqueue ▸ hm)) hat
      (hgathered₁ _ k hgathered) hpackets
  have hsocket : round.socketQueue.flatten
      = (sentPriority.flatMap packets ++ sent).flatMap Packet.bytes := hall.socket
  have hpacketSize : ∀ p ∈ sentPriority.flatMap packets ++ sent,
      p.bytes.length ≤ maxMessageSize := by
    intro p hp
    rcases List.mem_append.mp hp with hp | hp
    · obtain ⟨m, hm, hp⟩ := List.mem_flatMap.mp hp
      exact length_packet_le (hpriorities m hm).1 hp
    · have hin : p ∈ finished.flatMap packets ++ (left.flatMap packets).take k' := by
        rw [hpackets]
        exact List.mem_append_right _ hp
      have hmem : p ∈ (finished ++ left).flatMap packets := by
        rw [List.flatMap_append]
        rcases List.mem_append.mp hin with hin | hin
        · exact List.mem_append_left _ hin
        · exact List.mem_append_right _ (List.mem_of_mem_take hin)
      obtain ⟨m, hm, hp⟩ := List.mem_flatMap.mp hmem
      exact length_packet_le (h.normal m (hqueue ▸ hm)) hp
  refine ⟨hkept, fun m hm => h.priority m (hsplit ▸ List.mem_append_right _ hm), h.normal,
    fun x hx => ?_, r, hfollows, hstatus, hread, hdelivers, ?_, ?_⟩
  · have hqueueHeaders : round.sendQHeaders = t.history.sender.sendQHeaders
        ++ (sentPriority.flatMap packets ++ sent).flatMap Packet.headers := hall.headers
    change x ∈ round.sendQHeaders at hx
    rw [hqueueHeaders] at hx
    rcases List.mem_append.mp hx with hx | hx
    · exact h.headers x hx
    · obtain ⟨p, hp, hx⟩ := List.mem_flatMap.mp hx
      have hle := hpacketSize p hp
      have hpart := List.single_le_sum (fun _ _ => Nat.zero_le _) x.length
        (List.mem_map_of_mem (f := List.length) hx)
      rw [Packet.bytes, List.length_append, List.length_flatten] at hle
      omega
  · rintro ⟨⟩
  · rintro handed ⟨⟩
    refine ⟨hsentBytes, ?_, r₂, dp, dn, left, k', ?_, hstatus₂.trans hstatus₁,
      hread₂.trans hread₁, hp, hn, hd₂.trans (by rw [hd₁]), hqueue, hat', hgathered₂⟩
    · -- the budget of the round
      have hwithin := within_messageLoop h.normal
        (within_priorityLoop hsmalls (by simp only; omega) hpriority) hmessages
      have hleft := hall.bytesLeft
      rw [Within, hleft, ← hsocket] at hwithin
      change round.socketQueue.flatten.length ≤ _
      simp only at hwithin
      omega
    · change Follows r round.socketQueue.flatten r₂
      rw [hsocket, List.flatMap_append]
      exact hfollows₁.trans hfollows₂

/-- **A write that succeeds.** -/
theorem Linked.writeDone (h : Linked start t) {handed : Handed} {s : Sender}
    (hin : t.history.sender.inFlight = some handed)
    (hsent : t.history.sender.sentSomeBytes handed.bytes.length = some s) :
    Linked start ⟨{ t.history with
      sender := s
      writtenPriority := t.history.writtenPriority ++ handed.priority
      writtenNormal := t.history.writtenNormal ++ handed.finished
      recovering := false }, t.stream ++ handed.bytes⟩ := by
  have hcareful := h.careful (e := .writeDone) trivial handed hin
  have hkept := (h.kept.writeDone hin hcareful hsent).1
  obtain ⟨r, hfollows, hstatus, hread, hdelivers, -, hline⟩ := h.reader
  obtain ⟨-, -, r', dp, dn, left, k, hnext, hstatus', hread', hp, hn, hd, hqueue, hat, hgathered⟩ :=
    hline handed hin
  -- what is taken off the queue is what has been written
  obtain ⟨-, -, hnormal, -⟩ := h.kept.writing handed hin
  unfold Sender.sentSomeBytes at hsent
  rw [Option.bind_eq_bind, Option.bind_eq_some_iff] at hsent
  obtain ⟨⟨n, headers, bytesLeft⟩, hremove, hs⟩ := hsent
  obtain rfl := Option.some.inj hs
  obtain ⟨-, -, hnormal', -⟩ := hkept.idle rfl
  obtain rfl : left = t.history.sender.messageQueue.drop
      (n - t.history.sender.sentPriorityMessages.length) := by
    rw [hnormal, hqueue, ← List.append_assoc] at hnormal'
    rw [hqueue]
    exact List.append_cancel_left hnormal'
  refine ⟨hkept, h.priority, fun m hm => h.normal m (List.mem_of_mem_drop hm),
    fun x hx => h.headers x ((removeWritten_suffix hremove).subset hx), r', hfollows.trans hnext,
    hstatus'.trans hstatus, hread'.trans hread, ?_, fun _ => ⟨k, hat, hgathered⟩, by rintro _ ⟨⟩⟩
  rw [hd]
  exact (hdelivers.append_priority hp).append_normal hn

/-- One event. -/
theorem Linked.step (h : Linked start t) {e : WriteEvent} (he : Carries e)
    (hstep : t.step grow e = some t') : Linked start t' := by
  obtain ⟨l, hl, rfl⟩ := Option.map_eq_some_iff.mp hstep
  cases e with
  | queueMessage m priority =>
    obtain rfl := Option.some.inj hl
    exact h.queueMessage he priority _ (List.append_nil _)
  | runMessageQueue =>
    obtain ⟨s, hrun, rfl⟩ := Option.map_eq_some_iff.mp hl
    exact h.runMessageQueue hrun _ (List.append_nil _)
  | writeDone =>
    rw [History.step] at hl
    unfold written
    cases hin : t.history.sender.inFlight with
    | none =>
      rw [hin] at hl
      obtain rfl := Option.some.inj hl
      change Linked start ⟨t.history, t.stream ++ []⟩
      rw [List.append_nil]
      exact h
    | some handed =>
      rw [hin] at hl
      obtain ⟨s, hsent, rfl⟩ := Option.map_eq_some_iff.mp hl
      exact h.writeDone hin hsent
  | writeFailed => exact he.elim

/-- No assertion fails. -/
theorem Linked.exists_step (h : Linked start t) {e : WriteEvent} (he : Carries e) :
    ∃ t', t.step grow e = some t' := by
  have hhistory : ∃ l, t.history.step grow e = some l := by
    cases e with
    | queueMessage m priority => exact ⟨_, rfl⟩
    | runMessageQueue =>
      obtain ⟨s, hs⟩ := exists_runMessageQueue grow (fun m hm => (h.normal m hm).sendable)
        fun m hm => ⟨(h.priority m hm).sendable, h.kept.small m hm⟩
      exact ⟨_, by rw [History.step, hs]; rfl⟩
    | writeDone =>
      cases hin : t.history.sender.inFlight with
      | none => exact ⟨_, by rw [History.step, hin]⟩
      | some handed =>
        have hbound := h.careful (e := .writeDone) trivial handed hin
        obtain ⟨s, hs⟩ := h.kept.exists_sentSomeBytes hin hbound
        exact ⟨_, by rw [History.step, hin]; simp only [hs]; rfl⟩
    | writeFailed => exact he.elim
  obtain ⟨l, hl⟩ := hhistory
  exact ⟨_, by rw [Transfer.step, hl]; rfl⟩

/-- A receiver that gets the stream in segments is where the reader is. -/
theorem reads_of_follows {r : Receiver} {isOutgoing : Bool} {stream : List UInt8}
    (hfollows : Follows (Receiver.create isOutgoing) stream r)
    {segs : List (List UInt8 × Receiver.Memory)} (hsegs : Receiver.streamOf segs = stream)
    (hput : Receiver.Undisturbed (Receiver.create isOutgoing) segs) :
    Receiver.Reads ((Receiver.create isOutgoing).receiveAll segs) (r, some []) := by
  obtain ⟨hrun, halong⟩ := hfollows []
  rw [List.append_nil] at hrun halong
  have hreads : Receiver.Reads (Receiver.create isOutgoing) (Receiver.create isOutgoing, some []) :=
    ⟨rfl, rfl, rfl⟩
  have hdecided : Receiver.DecidedAlong (Receiver.create isOutgoing, some [])
      (Receiver.streamOf segs) := by
    rintro u ⟨⟩
    rw [List.nil_append, hsegs]
    exact halong ⟨fun hready => absurd hready.1 (by decide), trivial⟩
  have hall := Receiver.reads_receiveAll hreads hdecided hput
  by_cases hne : segs = []
  · subst hne
    obtain rfl : stream = [] := hsegs.symm
    obtain ⟨hsame, -⟩ := Prod.mk.inj hrun
    rw [← hsame]
    exact hreads
  · rw [Receiver.foldl_feed_of_ne_nil hne, hsegs] at hall
    change Receiver.Reads _ (Segments.run Receiver.takePacket (Receiver.create isOutgoing) stream)
      at hall
    rw [hrun] at hall
    exact hall

/-- **What the peer is handed.**  A run in which carried messages are queued, rounds are started and
writes succeed gets through.  However the written bytes are cut into segments, if the receive buffer of the
peer does not move with unread bytes in it: the peer stays connected, has no byte left over, and has handed
on each message that was written, once, with its body and the integers it takes, those of each queue in
their order.  A message that was queued and not written is still queued or on the line. -/
theorem delivers_of_run {grow : ℕ → ℕ} {events : List WriteEvent}
    (hcarries : ∀ e ∈ events, Carries e) :
    ∃ t : Transfer, events.foldlM (step grow) create = some t ∧
      (∀ (isOutgoing : Bool) (segs : List (List UInt8 × Receiver.Memory)),
        Receiver.streamOf segs = t.stream →
        Receiver.Undisturbed (Receiver.create isOutgoing) segs →
        (((Receiver.create isOutgoing).receiveAll segs).status = .connected ∧
          ((Receiver.create isOutgoing).receiveAll segs).receiveStream = []) ∧
        Delivers t.history.writtenPriority t.history.writtenNormal
          ((Receiver.create isOutgoing).receiveAll segs).delivered) ∧
      t.history.queuedPriority = t.history.writtenPriority
        ++ (t.history.sender.inFlight.elim [] Handed.priority
          ++ t.history.sender.priorityMessageQueue) ∧
      t.history.queuedNormal = t.history.writtenNormal ++ t.history.sender.messageQueue := by
  obtain ⟨t, hrun, hlinked⟩ := Runs.foldlM_total
    (P := fun t => ∀ isOutgoing, Linked (Receiver.create isOutgoing) t)
    (fun t e he h => by
      obtain ⟨t', ht'⟩ : ∃ t', t.step grow e = some t' := (h true).exists_step (hcarries e he)
      exact ⟨t', ht', fun isOutgoing => (h isOutgoing).step (hcarries e he) ht'⟩) linked_create
  refine ⟨t, hrun, fun isOutgoing segs hsegs hput => ?_, ?_⟩
  · obtain ⟨r, hfollows, -, -, hdelivers, -⟩ := (hlinked isOutgoing).reader
    obtain ⟨hclear, hstatus, hstream⟩ := reads_of_follows hfollows hsegs hput
    refine ⟨⟨hstatus, hstream⟩, ?_⟩
    have hsame := congrArg Receiver.delivered hclear
    change ((Receiver.create isOutgoing).receiveAll segs).delivered = r.delivered at hsame
    rw [hsame]
    exact hdelivers
  · have hkept := (hlinked true).kept
    cases hin : t.history.sender.inFlight with
    | none =>
      obtain ⟨-, hp, hn, -⟩ := hkept.idle hin
      exact ⟨hp, hn⟩
    | some handed =>
      obtain ⟨-, hp, hn, -⟩ := hkept.writing handed hin
      exact ⟨by rw [hp, List.append_assoc]; rfl, hn⟩

theorem carried_threeBytes : Carried History.threeBytes where
  noHeader := by decide
  names := by
    have hlist : History.threeBytes.headerData.toList = [(1, 16), (2, 2)] := by decide +kernel
    rw [hlist]
    exact List.forall_mem_cons.mpr ⟨.inl rfl, List.forall_mem_singleton.mpr (.inr (.inl rfl))⟩
  service_nonneg := by decide +kernel
  service_user := by decide +kernel
  service_int := by decide +kernel
  message_int := by decide +kernel
  room := fun _ => by
    rw [if_neg (by decide)]
    decide +kernel
  fits := by decide +kernel
  size_lt := by decide +kernel

/-- A message of each queue; the one with priority is sent first.  The stream arrives in two segments. -/
theorem delivers_of_run_threeBytes : ∃ t : Transfer,
    [.queueMessage History.threeBytes .normalPriority,
      .queueMessage History.threeBytes .highPriority, .runMessageQueue, .writeDone].foldlM
        (step id) create = some t ∧
    t.history.writtenPriority.length = 1 ∧ t.history.writtenNormal.length = 1 ∧
    Delivers t.history.writtenPriority t.history.writtenNormal
      ((Receiver.create true).receiveAll [(t.stream.take 5, .zeros),
        (t.stream.drop 5, .zeros)]).delivered := by
  have hcarries : ∀ e ∈ [.queueMessage History.threeBytes .normalPriority,
      .queueMessage History.threeBytes .highPriority, .runMessageQueue, .writeDone], Carries e := by
    intro e he
    rcases List.mem_cons.mp he with rfl | he
    · exact carried_threeBytes
    rcases List.mem_cons.mp he with rfl | he
    · exact carried_threeBytes
    rcases List.mem_cons.mp he with rfl | he
    · trivial
    obtain rfl := List.mem_singleton.mp he
    trivial
  obtain ⟨t, hrun, hall, -⟩ := @delivers_of_run id _ hcarries
  have hchecked : ∀ t' ∈ [.queueMessage History.threeBytes .normalPriority,
        .queueMessage History.threeBytes .highPriority, .runMessageQueue,
        .writeDone].foldlM (step id) create,
      t'.history.writtenPriority.length = 1 ∧ t'.history.writtenNormal.length = 1 ∧
        Receiver.Undisturbed (Receiver.create true)
          [(t'.stream.take 5, .zeros), (t'.stream.drop 5, .zeros)] := by decide +kernel
  obtain ⟨hp, hn, hput⟩ := hchecked t hrun
  refine ⟨t, hrun, hp, hn, (hall true _ ?_ hput).2⟩
  change [_, _].flatten = _
  rw [List.flatten_cons, List.flatten_cons, List.flatten_nil, List.append_nil,
    List.take_append_drop]

end Transfer

end Sender

end Network
