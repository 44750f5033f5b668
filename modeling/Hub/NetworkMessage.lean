/-
# Messages

`Message` (`libs/utils/Message.h`, `libs/utils/Message.cpp`): a slice of bytes, of which the
first `headerSize` are its own header, and a map of integers that the network manager puts in
the header it generates.  The service and message id live in the same map as the integers that
`setHeaderInt` adds, under the names `Network::ServiceId` and `Network::MessageId`.

The pointers `m_start`, `m_bodyStart` and `m_end` are the slice and the offset `headerSize`
into it; that they are in order is a field.
-/
import Hub.BufferPool

/-! ## Header tags -/

namespace Network

/-! `Network::HeaderTags` and `Network::ServiceTypes` (`NetworkEnums.h`). -/

def headerEnd : UInt32 := 0
def serviceId : UInt32 := 1
def messageId : UInt32 := 2
def sequenceStart : UInt32 := 3
def lastInSequence : UInt32 := 4
def ping : UInt32 := 5
def pong : UInt32 := 6

/-- The service that the network manager keeps to itself. -/
def systemServiceId : Int32 := 126

end Network

/-! ## The message -/

/-- `Message`; the endpoint `remote` it came from is left out. -/
structure Message where
  rawData : Streaming.ConstBuffer
  headerSize : ℕ
  headerSize_le : headerSize ≤ rawData.bytes.length
  headerData : Std.TreeMap Int32 Int32

namespace Message

/-- `Message(sharedBuffer, start, bodyStart, end)`.  A body that would start behind the end of the
message starts at its end. -/
def ofSlice (rawData : Streaming.ConstBuffer) (headerSize : ℕ) : Message where
  rawData := rawData
  headerSize := min headerSize rawData.bytes.length
  headerSize_le := Nat.min_le_right _ _
  headerData := ∅

/-- `hasHeader`. -/
def hasHeader (m : Message) : Bool := m.headerSize ≠ 0

/-- The bytes of `body()`. -/
def body (m : Message) : List UInt8 := m.rawData.bytes.drop m.headerSize

/-- `size`. -/
def size (m : Message) : ℕ := m.rawData.bytes.length

/-- `headerInt`, with its default. -/
def headerInt (m : Message) (name : Int32) : Int32 := m.headerData[name]?.getD (-1)

/-- `messageId`. -/
def messageId (m : Message) : Int32 := m.headerInt Network.messageId.toInt32

/-- `serviceId`. -/
def serviceId (m : Message) : Int32 := m.headerInt Network.serviceId.toInt32

/-- `setMessageId`. -/
def setMessageId (m : Message) (id : Int32) : Message :=
  { m with headerData := m.headerData.insert Network.messageId.toInt32 id }

/-- `setServiceId`. -/
def setServiceId (m : Message) (id : Int32) : Message :=
  { m with headerData := m.headerData.insert Network.serviceId.toInt32 id }

/-- `setHeaderInt`: `none` is the failed assertion.  `std::map::insert` keeps a value that is
already there. -/
def setHeaderInt (m : Message) (name value : Int32) : Option Message :=
  if name > 10 then some { m with headerData := m.headerData.insertIfNew name value } else none

/-- `Message(payload, serviceId, messageId)`: all of the payload is body. -/
def ofPayload (payload : Streaming.ConstBuffer) (serviceId messageId : Int32) : Message :=
  (({ rawData := payload, headerSize := 0, headerSize_le := Nat.zero_le _,
      headerData := ∅ } : Message).setServiceId serviceId).setMessageId messageId

/-- The loop that gives a message the integers of a map. -/
def setHeaderInts (m : Message) (ints : Std.TreeMap Int32 Int32) : Option Message :=
  ints.toList.foldlM (fun m e => m.setHeaderInt e.1 e.2) m

/-! ### What the setters do to the integers -/

@[simp] theorem headerData_setMessageId (m : Message) (id name : Int32) :
    (m.setMessageId id).headerData[name]? =
      if name = Network.messageId.toInt32 then some id else m.headerData[name]? := by
  rw [setMessageId, Std.TreeMap.getElem?_insert]
  simp only [Std.LawfulEqCmp.compare_eq_iff_eq, @eq_comm _ name]

@[simp] theorem headerData_setServiceId (m : Message) (id name : Int32) :
    (m.setServiceId id).headerData[name]? =
      if name = Network.serviceId.toInt32 then some id else m.headerData[name]? := by
  rw [setServiceId, Std.TreeMap.getElem?_insert]
  simp only [Std.LawfulEqCmp.compare_eq_iff_eq, @eq_comm _ name]

/-- `setHeaderInt` on a name that may be set. -/
theorem setHeaderInt_eq_some {m : Message} {name v : Int32} (h : name > 10) :
    ∃ m', m.setHeaderInt name v = some m' ∧ m'.rawData = m.rawData ∧
      m'.headerSize = m.headerSize ∧
      ∀ n, m'.headerData[n]? =
        if n = name then some (m.headerData[n]?.getD v) else m.headerData[n]? := by
  refine ⟨_, if_pos h, rfl, rfl, fun n => ?_⟩
  rw [Std.TreeMap.getElem?_insertIfNew]
  simp only [Std.LawfulEqCmp.compare_eq_iff_eq]
  by_cases hn : n = name
  · subst hn
    rw [if_pos rfl]
    by_cases hmem : n ∈ m.headerData
    · rw [if_neg (by simp [hmem])]
      cases hv : m.headerData[n]? with
      | none => simp [Std.TreeMap.mem_iff_isSome_getElem?, hv] at hmem
      | some v => rfl
    · rw [if_pos ⟨rfl, hmem⟩, Std.TreeMap.getElem?_eq_none hmem]
      rfl
  · rw [if_neg hn, if_neg (fun h => hn h.1.symm)]

/-- The loop over the entries of a list: the first entry of a name that is not yet set counts. -/
theorem foldlM_setHeaderInt : ∀ {entries : List (Int32 × Int32)} {m : Message},
    (∀ e ∈ entries, e.1 > 10) →
    ∃ m', entries.foldlM (fun m e => m.setHeaderInt e.1 e.2) m = some m' ∧
      m'.rawData = m.rawData ∧ m'.headerSize = m.headerSize ∧
      ∀ n, m'.headerData[n]? =
        m.headerData[n]?.or ((entries.find? (·.1 == n)).map Prod.snd) := by
  intro entries
  induction entries with
  | nil =>
    intro m _
    exact ⟨m, rfl, rfl, rfl, fun n => by simp⟩
  | cons e entries ih =>
    intro m hnames
    obtain ⟨mid, hset, hraw, hsize, hdata⟩ :=
      setHeaderInt_eq_some (m := m) (v := e.2) (hnames e (by simp))
    obtain ⟨m', hrest, hraw', hsize', hdata'⟩ :=
      ih (m := mid) (fun x hx => hnames x (by simp [hx]))
    refine ⟨m', ?_, hraw'.trans hraw, hsize'.trans hsize, fun n => ?_⟩
    · rw [List.foldlM_cons, hset]
      exact hrest
    · rw [hdata' n, hdata n]
      by_cases hn : n = e.1
      · subst hn
        rw [if_pos rfl, List.find?_cons_of_pos (by simp)]
        cases m.headerData[e.1]? <;> rfl
      · rw [if_neg hn, List.find?_cons_of_neg (by simpa using Ne.symm hn)]

/-- **Setting the integers of a map.**  It succeeds if and only if all names are above `10`. -/
theorem setHeaderInts_eq_none_iff {m : Message} {ints : Std.TreeMap Int32 Int32} :
    m.setHeaderInts ints = none ↔ ∃ e ∈ ints.toList, ¬ e.1 > 10 := by
  rw [setHeaderInts]
  generalize ints.toList = entries
  induction entries generalizing m with
  | nil => simp
  | cons e entries ih =>
    rw [List.foldlM_cons]
    by_cases he : e.1 > 10
    · obtain ⟨mid, hset, -⟩ := setHeaderInt_eq_some (m := m) (v := e.2) he
      rw [hset]
      show entries.foldlM _ mid = none ↔ _
      rw [ih]
      simp [he]
    · rw [show m.setHeaderInt e.1 e.2 = none from if_neg he]
      exact ⟨fun _ => ⟨e, by simp, he⟩, fun _ => rfl⟩

theorem find?_toList (ints : Std.TreeMap Int32 Int32) (n : Int32) :
    (ints.toList.find? (·.1 == n)).map Prod.snd = ints[n]? := by
  cases h : ints[n]? with
  | none =>
    rw [Option.map_eq_none_iff, List.find?_eq_none]
    intro e he heq
    have hget := Std.TreeMap.mem_toList_iff_getElem?_eq_some.mp (show (e.1, e.2) ∈ _ from he)
    rw [beq_iff_eq] at heq
    rw [heq, h] at hget
    cases hget
  | some v =>
    have hmem := Std.TreeMap.mem_toList_iff_getElem?_eq_some.mpr h
    cases hfind : ints.toList.find? (·.1 == n) with
    | none => simpa using List.find?_eq_none.mp hfind _ hmem
    | some e =>
      have he := List.find?_some hfind
      have hget := Std.TreeMap.mem_toList_iff_getElem?_eq_some.mp
        (show (e.1, e.2) ∈ _ from List.mem_of_find?_eq_some hfind)
      rw [beq_iff_eq] at he
      rw [he, h] at hget
      exact hget.symm

/-- The integers of a message that was given those of a map. -/
theorem setHeaderInts_eq_some {m : Message} {ints : Std.TreeMap Int32 Int32}
    (h : ∀ e ∈ ints.toList, e.1 > 10) :
    ∃ m', m.setHeaderInts ints = some m' ∧ m'.rawData = m.rawData ∧
      m'.headerSize = m.headerSize ∧
      ∀ n : Int32, m'.headerData[n]? = m.headerData[n]?.or ints[n]? := by
  obtain ⟨m', hset, hraw, hsize, hdata⟩ := foldlM_setHeaderInt (m := m) h
  refine ⟨m', hset, hraw, hsize, fun n => ?_⟩
  rw [hdata, find?_toList]

end Message
