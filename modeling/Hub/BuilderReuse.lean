/-
# Messages built one after the other

A `MessageBuilder` is meant to be used for one message after the other: `message` and `buffer`
prepare it for the next one.  They do not set `m_inHeader` again, so only the first header that
is ended sets `m_headerSize`.

* `build_spec` : what one message is made of;
* `messages_good_iff` : the messages of a run are right exactly when their headers are all of
  one size and no message is longer than two bytes can say.
-/
import Hub.ByteCodec
import Hub.MessageBuilder

open ByteCodec

namespace Streaming

/-- What `message` returns: the bytes, and where the body starts.  The constructor of `Message`
does not look at where; `body()` has an assertion for a start behind the end. -/
structure BuiltMessage where
  rawData : ConstBuffer
  bodyStart : ℕ
  serviceId : Int32
  messageId : Int32

/-! ## The used part of a pool -/

theorem slice_append (mem : List UInt8) {i j k : ℕ} (hij : i ≤ j) (hjk : j ≤ k) :
    slice mem i j ++ slice mem j k = slice mem i k := by
  have hk : k - i = (j - i) + (k - j) := by omega
  have hj : i + (j - i) = j := by omega
  rw [slice, slice, slice, List.drop_take, List.drop_take, List.drop_take, hk, List.take_add,
    List.drop_drop, hj]

namespace BufferPool

/-- Bytes that are marked used without a write. -/
theorem used_markUsed {pool pool' : BufferPool} {n : ℕ} (h : pool.markUsed n = some pool') :
    ∃ x, x.length = n ∧ pool'.used = pool.used ++ x ∧ pool'.capacity + n = pool.capacity := by
  have hle : pool.writePointer + n ≤ pool.buffer.length := by
    rw [markUsed] at h
    split at h
    next hfit => exact hfit
    next => cases h
  obtain ⟨mid, hmid, hbuf, hread, hwrite⟩ := pool.markUsed_spec n hle
  obtain rfl := Option.some.inj (h.symm.trans hmid)
  refine ⟨slice pool.buffer pool.writePointer (pool.writePointer + n), ?_, ?_, ?_⟩
  · rw [slice, List.length_drop, List.length_take]
    omega
  · rw [used, used, hbuf, hread, hwrite,
      slice_append _ pool.read_le_write (Nat.le_add_right _ _)]
  · rw [capacity, capacity, hbuf, hwrite]
    omega

/-- The first bytes of the used part are overwritten. -/
theorem store_front {pool : BufferPool} {x y bytes : List UInt8} (hused : pool.used = x ++ y)
    (hlen : bytes.length = x.length) :
    ∃ pool', pool.store pool.readPointer bytes = some pool' ∧ pool'.used = bytes ++ y ∧
      pool'.capacity = pool.capacity := by
  have hle := pool.write_le_size
  have hread := pool.read_le_write
  have hsize := congrArg List.length hused
  rw [length_used, size, List.length_append] at hsize
  have hfit : pool.readPointer + bytes.length ≤ pool.buffer.length := by omega
  obtain ⟨pool', hstore, hbuf, hread', hwrite'⟩ := pool.store_spec pool.readPointer bytes hfit
  refine ⟨pool', hstore, ?_, ?_⟩
  · have hy : y = (pool.buffer.drop (pool.readPointer + bytes.length)).take
        (pool.writePointer - pool.readPointer - bytes.length) := by
      have hdrop := congrArg (List.drop x.length) hused
      rw [List.drop_left, used, slice, List.drop_take, List.drop_take, List.drop_drop] at hdrop
      rw [← hdrop, hlen]
    have hfront : (pool.buffer.take pool.readPointer).length = pool.readPointer := by
      rw [List.length_take]
      omega
    rw [used, hbuf, hread', hwrite', slice, List.drop_take, writeAt, List.append_assoc,
      List.drop_left' hfront, List.take_append, List.take_of_length_le (by omega), ← hy]
  · rw [capacity, capacity, hbuf, hwrite', length_writeAt hfit]

end BufferPool

namespace MessageBuilder

/-- `MessageBuilder::message`. -/
def message (b : MessageBuilder) (serviceId messageId : Int32) :
    Option (BuiltMessage × MessageBuilder) := do
  guard (b.beforeHeader = false)
  if b.messageType ≠ .noHeader then
    let b ← b.setMessageSize b.buffer.size
    let (answer, pool) := b.buffer.commit
    some (⟨answer, b.headerSize, serviceId, messageId⟩, { b with buffer := pool, beforeHeader := true })
  else
    let (answer, pool) := b.buffer.commit
    some (⟨answer, 0, serviceId, messageId⟩, { b with buffer := pool, beforeHeader := false })

end MessageBuilder

/-- The fields of a message: those of its header, which is ended by a field of its own, and
those of its body. -/
structure MessageParts where
  header : List MessageField
  body : List MessageField
  serviceId : Int32
  messageId : Int32
  header_open : ∀ f ∈ header, ¬ f.EndsHeader

namespace MessageParts

/-- `add(Network::HeaderEnd, true)`. -/
def headerEnd : MessageField := ⟨0, .bool true⟩

/-- The fields in the order in which they are added. -/
def fields (m : MessageParts) : List MessageField := m.header ++ headerEnd :: m.body

/-- The bytes of a list of fields. -/
def wires (fs : List MessageField) : List UInt8 := (fs.map MessageField.wire).flatten

/-- The two bytes of the size, the header and the field that ends it. -/
def headerSize (m : MessageParts) : ℕ := 2 + (wires (m.header ++ [headerEnd])).length

/-- All bytes of the message. -/
def size (m : MessageParts) : ℕ := 2 + (wires m.fields).length

/-- What is asked of the message that is made of the parts: its body starts behind its own
header, and the first two bytes are its size. -/
structure Good (m : MessageParts) (built : BuiltMessage) : Prop where
  bytes : built.rawData.bytes.drop 2 = wires (m.header ++ [headerEnd]) ++ wires m.body
  body : built.rawData.bytes.drop built.bodyStart = wires m.body ∧
    built.bodyStart + (wires m.body).length = built.rawData.bytes.length
  prefixed : leNat (built.rawData.bytes.take 2) = built.rawData.bytes.length

end MessageParts

namespace MessageBuilder

open MessageParts (wires)

/-- One message: the calls of `add`, and `message`. -/
def build (b : MessageBuilder) (m : MessageParts) : Option (BuiltMessage × MessageBuilder) := do
  let b ← m.fields.foldlM add b
  b.message m.serviceId m.messageId

/-- The messages that are returned, with the parts that they are made of.  The first write
behind the end of the pool ends the run. -/
def messages : MessageBuilder → List MessageParts → List (MessageParts × BuiltMessage)
  | _, [] => []
  | b, m :: ms =>
      match b.build m with
      | none => []
      | some (built, b) => (m, built) :: messages b ms

/-! ## Adding fields -/

/-- Nothing is written behind the end of the pool. -/
theorem capacity_of_put {b b' : MessageBuilder} {bytes : List UInt8} (h : b.put bytes = some b') :
    bytes.length ≤ b.buffer.capacity := by
  rw [put, BufferPool.put, BufferPool.store] at h
  split at h
  next hfit =>
    rw [BufferPool.capacity]
    omega
  next => cases h

/-- Of two writes in a row, neither is. -/
theorem capacity_of_put_put {b b' : MessageBuilder} {x y : List UInt8}
    (h : (b.put x >>= fun b => b.put y) = some b') : (x ++ y).length ≤ b.buffer.capacity := by
  rw [Option.bind_eq_bind, Option.bind_eq_some_iff] at h
  obtain ⟨mid, hx, hy⟩ := h
  have hfits := capacity_of_put hx
  obtain ⟨pool, hx', -, hcap⟩ := b.put_spec x hfits
  obtain rfl := Option.some.inj (hx.symm.trans hx')
  have hfits' := capacity_of_put hy
  rw [List.length_append]
  dsimp only at hfits'
  omega

theorem capacity_of_add {b b' : MessageBuilder} {f : MessageField} (hbefore : b.beforeHeader = false)
    (h : b.add f = some b') : f.wire.length ≤ b.buffer.capacity := by
  have hreserve : b.reserveSize = some b := by
    rw [reserveSize, hbefore]
    rfl
  unfold add at h
  cases hv : f.value with
  | uint64 v =>
    simp only [hv, addUInt64, hreserve] at h
    simp only [MessageField.wire, hv]
    exact capacity_of_put_put h
  | int32 v =>
    simp only [hv, addInt32, hreserve, int32Magnitude_le] at h
    simp only [MessageField.wire, hv]
    exact capacity_of_put_put h
  | bool v =>
    simp only [hv, addBool, hreserve, Option.bind_eq_bind, Option.bind_some,
      Option.bind_eq_some_iff] at h
    simp only [MessageField.wire, hv]
    obtain ⟨mid, hput, -⟩ := h
    exact capacity_of_put hput
  | double v =>
    simp only [hv, addDouble, hreserve] at h
    simp only [MessageField.wire, hv]
    exact capacity_of_put_put h
  | string v =>
    simp only [hv, addString, hreserve] at h
    simp only [MessageField.wire, hv]
    exact capacity_of_put_put h
  | bytes v =>
    simp only [hv, addBytes, hreserve] at h
    simp only [MessageField.wire, hv]
    exact capacity_of_put_put h

/-- The field that ends the header. -/
theorem add_headerEnd {b : MessageBuilder} {f : MessageField} (hbefore : b.beforeHeader = false)
    (hheader : b.inHeader = true) (hf : f.EndsHeader) (h : f.wire.length ≤ b.buffer.capacity) :
    ∃ pool, b.add f = some { b with buffer := pool, inHeader := false, headerSize := pool.size } ∧
      pool.used = b.buffer.used ++ f.wire ∧
      pool.capacity + f.wire.length = b.buffer.capacity := by
  have hreserve : b.reserveSize = some b := by
    rw [reserveSize, hbefore]
    rfl
  obtain ⟨htag, v, hv⟩ := hf
  simp only [MessageField.wire, hv] at h ⊢
  obtain ⟨pool, hput, hused, hcap⟩ := b.put_spec _ h
  refine ⟨pool, ?_, hused, hcap⟩
  simp only [add, hv, addBool, hreserve, Option.bind_eq_bind, Option.bind_some, hput, hheader]
  simp only [htag]
  rfl

theorem length_wires (fs : List MessageField) :
    (wires fs).length = (fs.map (·.wire.length)).sum := by
  rw [wires, List.length_flatten, List.map_map]
  rfl

/-- Between two messages with a header: nothing is in the pool that is not committed. -/
structure Idle (b : MessageBuilder) : Prop where
  before : b.beforeHeader = true
  type : b.messageType ≠ .noHeader
  used : b.buffer.used = []

/-- The first `add` of a message makes room for the size, and then does what any `add` does. -/
theorem add_of_reserveSize {b b' : MessageBuilder} (h : b.reserveSize = some b')
    (hbefore : b'.beforeHeader = false) (f : MessageField) : b.add f = b'.add f := by
  have h' : b'.reserveSize = some b' := by
    rw [reserveSize, hbefore]
    rfl
  unfold add
  cases f.value with
  | uint64 v => simp only [addUInt64, h, h']
  | int32 v => simp only [addInt32, h, h']
  | bool v => simp only [addBool, h, h']
  | double v => simp only [addDouble, h, h']
  | string v => simp only [addString, h, h']
  | bytes v => simp only [addBytes, h, h']

/-- Without room for the size nothing is added. -/
theorem add_eq_none_of_reserveSize {b : MessageBuilder} (h : b.reserveSize = none)
    (f : MessageField) : b.add f = none := by
  unfold add
  cases f.value with
  | uint64 v => simp only [addUInt64, h, Option.bind_eq_bind, Option.bind_none]
  | int32 v => simp only [addInt32, h, Option.bind_eq_bind, Option.bind_none]
  | bool v => simp only [addBool, h, Option.bind_eq_bind, Option.bind_none]
  | double v => simp only [addDouble, h, Option.bind_eq_bind, Option.bind_none]
  | string v => simp only [addString, h, Option.bind_eq_bind, Option.bind_none]
  | bytes v => simp only [addBytes, h, Option.bind_eq_bind, Option.bind_none]

/-- **The start of a message.**  Its first field takes two more bytes than the other ones. -/
theorem Idle.foldlM_add {b : MessageBuilder} (h : b.Idle) {fs : List MessageField} (hne : fs ≠ []) :
    (∃ pool, b.buffer.markUsed 2 = some pool ∧
      fs.foldlM add b = fs.foldlM add { b with buffer := pool, beforeHeader := false }) ∨
    b.buffer.markUsed 2 = none ∧ fs.foldlM add b = none := by
  obtain ⟨f, fs, rfl⟩ := List.exists_cons_of_ne_nil hne
  cases hmark : b.buffer.markUsed 2 with
  | none =>
    have hreserve : b.reserveSize = none := by
      rw [reserveSize, h.before, hmark]
      rfl
    right
    rw [List.foldlM_cons, add_eq_none_of_reserveSize hreserve]
    exact ⟨rfl, rfl⟩
  | some pool =>
    have hreserve : b.reserveSize = some { b with buffer := pool, beforeHeader := false } := by
      rw [reserveSize, h.before, hmark]
      rfl
    left
    refine ⟨pool, rfl, ?_⟩
    rw [List.foldlM_cons, List.foldlM_cons, add_of_reserveSize hreserve rfl]

theorem used_commit (pool : BufferPool) : pool.commit.2.used = [] := by
  show slice pool.buffer pool.writePointer pool.writePointer = []
  rw [slice, List.drop_take, Nat.sub_self, List.take_zero]

/-- The two bytes of a size. -/
def sizeBytes (size : ℕ) : List UInt8 :=
  [UInt8.ofNat (size % 256), UInt8.ofNat (size / 256 % 256)]

/-- The size takes the room that was made for it. -/
theorem setMessageSize_spec {b : MessageBuilder} (hbefore : b.beforeHeader = false)
    (htype : b.messageType ≠ .noHeader) {x y : List UInt8} (hx : x.length = 2)
    (hused : b.buffer.used = x ++ y) {size : ℕ} (hsize : 0 < size) :
    ∃ pool, b.setMessageSize size = some { b with buffer := pool } ∧
      pool.used = sizeBytes size ++ y ∧ pool.capacity = b.buffer.capacity := by
  obtain ⟨pool, hstore, hused', hcap⟩ := BufferPool.store_front hused
    (show (sizeBytes size).length = x.length by rw [hx]; rfl)
  refine ⟨pool, ?_, hused', hcap⟩
  have hguard : b.messageType ≠ .noHeader ∧ b.beforeHeader = false ∧ 0 < size :=
    ⟨htype, hbefore, hsize⟩
  rw [sizeBytes] at hstore
  simp only [setMessageSize, guard, if_pos hguard, hstore, Option.bind_eq_bind, Option.bind_some,
    Option.pure_def]

theorem message_spec {b : MessageBuilder} (hbefore : b.beforeHeader = false)
    (htype : b.messageType ≠ .noHeader) {x y : List UInt8} (hx : x.length = 2)
    (hused : b.buffer.used = x ++ y) (serviceId messageId : Int32) :
    ∃ built b', b.message serviceId messageId = some (built, b') ∧ b'.Idle ∧
      b'.inHeader = b.inHeader ∧ b'.headerSize = b.headerSize ∧
      b'.buffer.capacity = b.buffer.capacity ∧ built.bodyStart = b.headerSize ∧
      built.rawData.bytes = sizeBytes (2 + y.length) ++ y := by
  have hsize : b.buffer.size = 2 + y.length := by
    rw [← BufferPool.length_used, hused, List.length_append, hx]
  obtain ⟨pool, hset, hused', hcap⟩ := setMessageSize_spec hbefore htype hx hused
    (show 0 < b.buffer.size by omega)
  refine ⟨⟨pool.commit.1, b.headerSize, serviceId, messageId⟩,
    { b with buffer := pool.commit.2, beforeHeader := true }, ?_, ⟨rfl, htype, used_commit pool⟩,
    rfl, rfl, hcap, rfl, ?_⟩
  · simp only [message, guard, hbefore, if_true, if_pos htype, hset, Option.bind_eq_bind,
      Option.bind_some, Option.pure_def]
  · rw [← hsize]
    exact hused'

/-- The fields of a message, behind the room for its size. -/
theorem foldlM_add_fields {b : MessageBuilder} (hbefore : b.beforeHeader = false)
    (m : MessageParts) (hroom : (wires m.fields).length ≤ b.buffer.capacity) :
    ∃ b', m.fields.foldlM add b = some b' ∧ b'.beforeHeader = false ∧
      b'.messageType = b.messageType ∧ b'.inHeader = false ∧
      b'.headerSize = (if b.inHeader then
        b.buffer.size + (wires (m.header ++ [MessageParts.headerEnd])).length else b.headerSize) ∧
      b'.buffer.used = b.buffer.used ++ wires m.fields ∧
      b'.buffer.capacity + (wires m.fields).length = b.buffer.capacity := by
  have hsplit : wires m.fields
      = wires m.header ++ (MessageParts.headerEnd.wire ++ wires m.body) := by
    simp [wires, MessageParts.fields]
  rw [hsplit, List.length_append, List.length_append] at hroom
  obtain ⟨pool₁, hadd₁, hused₁, hcap₁⟩ := foldlM_add_spec m.header b hbefore
    (fun _ => m.header_open) (by rw [← length_wires]; omega)
  rw [← length_wires] at hcap₁
  -- the field that ends the header, the first time and later
  obtain ⟨b₂, hadd₂, hb₂, htype₂, hin₂, hhs₂, hused₂, hcap₂⟩ :
      ∃ b₂, add { b with buffer := pool₁ } MessageParts.headerEnd = some b₂ ∧
        b₂.beforeHeader = false ∧ b₂.messageType = b.messageType ∧ b₂.inHeader = false ∧
        b₂.headerSize = (if b.inHeader then b₂.buffer.size else b.headerSize) ∧
        b₂.buffer.used = pool₁.used ++ MessageParts.headerEnd.wire ∧
        b₂.buffer.capacity + MessageParts.headerEnd.wire.length = pool₁.capacity := by
    have hend : MessageParts.headerEnd.wire.length ≤ pool₁.capacity := by omega
    by_cases hin : b.inHeader = true
    · obtain ⟨pool₂, hadd₂, hused₂, hcap₂⟩ := add_headerEnd (b := { b with buffer := pool₁ })
        hbefore hin ⟨rfl, true, rfl⟩ hend
      exact ⟨_, hadd₂, hbefore, rfl, rfl, by rw [if_pos hin], hused₂, hcap₂⟩
    · obtain ⟨pool₂, hadd₂, hused₂, hcap₂⟩ := add_spec { b with buffer := pool₁ }
        MessageParts.headerEnd hbefore (fun hc => hin hc.1) hend
      exact ⟨_, hadd₂, hbefore, rfl, by simpa using hin, by rw [if_neg hin], hused₂, hcap₂⟩
  obtain ⟨pool₃, hadd₃, hused₃, hcap₃⟩ := foldlM_add_spec m.body b₂ hb₂ (by simp [hin₂])
    (by rw [← length_wires]; omega)
  rw [← length_wires] at hcap₃
  refine ⟨{ b₂ with buffer := pool₃ }, ?_, hb₂, htype₂, hin₂, ?_, ?_, ?_⟩
  · rw [MessageParts.fields, List.foldlM_append, hadd₁]
    show (List.foldlM add _ (MessageParts.headerEnd :: m.body)) = _
    rw [List.foldlM_cons, hadd₂]
    exact hadd₃
  · show b₂.headerSize = _
    rw [hhs₂]
    split
    · rw [← BufferPool.length_used, ← BufferPool.length_used, hused₂, hused₁]
      simp [wires]
    · rfl
  · show pool₃.used = _
    rw [hused₃, hused₂, hused₁, hsplit]
    simp [wires]
  · rw [hsplit, List.length_append, List.length_append]
    show pool₃.capacity + _ = _
    omega

/-- **One message.**  It is returned if there is room for it.  The body starts behind its own
header if that is the first one that the builder ends, and else where the body of the first
message started. -/
theorem build_spec {b : MessageBuilder} (h : b.Idle) (m : MessageParts)
    (hroom : m.size ≤ b.buffer.capacity) :
    ∃ built b', b.build m = some (built, b') ∧ b'.Idle ∧ b'.inHeader = false ∧
      b'.headerSize = (if b.inHeader then m.headerSize else b.headerSize) ∧
      b'.buffer.capacity + m.size = b.buffer.capacity ∧ built.bodyStart = b'.headerSize ∧
      built.rawData.bytes = sizeBytes m.size ++ wires m.fields := by
  have hsize : m.size = 2 + (wires m.fields).length := rfl
  have hne : m.fields ≠ [] := by simp [MessageParts.fields]
  rcases h.foldlM_add hne with ⟨pool, hmark, hadd⟩ | ⟨hmark, -⟩
  · obtain ⟨x, hx, hused, hcap⟩ := BufferPool.used_markUsed hmark
    rw [h.used, List.nil_append] at hused
    obtain ⟨b', hadd', hb', htype', hin', hhs', hused', hcap'⟩ := foldlM_add_fields
      (b := { b with buffer := pool, beforeHeader := false }) rfl m
      (show _ ≤ pool.capacity by omega)
    dsimp only at hhs' hused' hcap' htype'
    rw [hused] at hused'
    obtain ⟨built, b'', hmsg, hidle, hin'', hhs'', hcap'', hstart, hbytes⟩ := message_spec hb'
      (by rw [htype']; exact h.type) hx hused' m.serviceId m.messageId
    refine ⟨built, b'', ?_, hidle, hin''.trans hin', ?_, by omega, hstart.trans hhs''.symm, hbytes⟩
    · rw [build, hadd, hadd']
      exact hmsg
    · rw [hhs'', hhs', ← BufferPool.length_used, hused, hx]
      rfl
  · rw [BufferPool.markUsed, dif_pos] at hmark
    · cases hmark
    · rw [BufferPool.capacity] at hroom
      omega

/-- Any field is appended if there is room for it. -/
theorem add_room {b : MessageBuilder} {f : MessageField} (hbefore : b.beforeHeader = false)
    (hroom : f.wire.length ≤ b.buffer.capacity) :
    ∃ b', b.add f = some b' ∧ b'.beforeHeader = false ∧ b'.messageType = b.messageType ∧
      b'.buffer.used = b.buffer.used ++ f.wire ∧
      b'.buffer.capacity + f.wire.length = b.buffer.capacity := by
  by_cases hends : b.inHeader = true ∧ f.EndsHeader
  · obtain ⟨pool, hadd, hused, hcap⟩ := add_headerEnd hbefore hends.1 hends.2 hroom
    exact ⟨_, hadd, hbefore, rfl, hused, hcap⟩
  · obtain ⟨pool, hadd, hused, hcap⟩ := b.add_spec f hbefore hends hroom
    exact ⟨_, hadd, hbefore, rfl, hused, hcap⟩

theorem wires_cons (f : MessageField) (fs : List MessageField) :
    wires (f :: fs) = f.wire ++ wires fs := by
  simp [wires]

/-- So are fields that are added one by one. -/
theorem foldlM_add_room : ∀ {fs : List MessageField} {b : MessageBuilder},
    b.beforeHeader = false → (wires fs).length ≤ b.buffer.capacity →
    ∃ b', fs.foldlM add b = some b' ∧ b'.beforeHeader = false ∧
      b'.messageType = b.messageType ∧ b'.buffer.used = b.buffer.used ++ wires fs ∧
      b'.buffer.capacity + (wires fs).length = b.buffer.capacity := by
  intro fs
  induction fs with
  | nil =>
    intro b hbefore _
    exact ⟨b, rfl, hbefore, rfl, by simp [wires], by simp [wires]⟩
  | cons f fs ih =>
    intro b hbefore hroom
    rw [wires_cons, List.length_append] at hroom
    obtain ⟨mid, hadd, hmid, htype, hused, hcap⟩ := add_room (f := f) hbefore (by omega)
    obtain ⟨b', hrest, hb', htype', hused', hcap'⟩ := ih hmid (by omega)
    refine ⟨b', ?_, hb', htype'.trans htype, ?_, ?_⟩
    · rw [List.foldlM_cons, hadd]
      exact hrest
    · rw [hused', hused, wires_cons, List.append_assoc]
    · rw [wires_cons, List.length_append]
      omega

theorem capacity_foldlM_add : ∀ {fs : List MessageField} {b b' : MessageBuilder},
    b.beforeHeader = false → fs.foldlM add b = some b' →
    b'.buffer.capacity + (wires fs).length = b.buffer.capacity := by
  intro fs
  induction fs with
  | nil =>
    intro b b' _ h
    obtain rfl := Option.some.inj h
    simp [wires]
  | cons f fs ih =>
    intro b b' hbefore h
    rw [List.foldlM_cons, Option.bind_eq_bind, Option.bind_eq_some_iff] at h
    obtain ⟨mid, hadd, hrest⟩ := h
    obtain ⟨mid', hadd', hmid, -, -, hcap⟩ := add_room hbefore (capacity_of_add hbefore hadd)
    obtain rfl := Option.some.inj (hadd.symm.trans hadd')
    have hcap' := ih hmid hrest
    rw [wires_cons, List.length_append]
    omega

/-- Without room for the fields, and for the size in front of them, they are not added. -/
theorem Idle.foldlM_add_eq_none {b : MessageBuilder} (h : b.Idle) {fs : List MessageField}
    (hne : fs ≠ []) (hroom : ¬ 2 + (wires fs).length ≤ b.buffer.capacity) :
    fs.foldlM add b = none := by
  rcases h.foldlM_add hne with ⟨pool, hmark, hadd⟩ | ⟨-, hnone⟩
  · obtain ⟨x, -, -, hcap⟩ := BufferPool.used_markUsed hmark
    rw [hadd, Option.eq_none_iff_forall_not_mem]
    intro b' hb'
    have hcap' : b'.buffer.capacity + (wires fs).length = pool.capacity :=
      capacity_foldlM_add rfl hb'
    omega
  · exact hnone

/-- Without room for it no message is returned. -/
theorem build_eq_none {b : MessageBuilder} (h : b.Idle) (m : MessageParts)
    (hroom : ¬ m.size ≤ b.buffer.capacity) : b.build m = none := by
  rw [build, h.foldlM_add_eq_none (by simp [MessageParts.fields]) hroom]
  rfl

/-! ## A run -/

/-- The messages for which there is room. -/
def fitting : ℕ → List MessageParts → List MessageParts
  | _, [] => []
  | room, m :: ms => if m.size ≤ room then m :: fitting (room - m.size) ms else []

theorem leNat_sizeBytes (size : ℕ) : leNat (sizeBytes size) = size % 2 ^ 16 := by
  simp only [sizeBytes, leNat, UInt8.toNat_ofNat']
  omega

/-- A message with the right bytes is right if its body starts in the right place and two
bytes suffice for its size. -/
theorem good_iff {m : MessageParts} {built : BuiltMessage}
    (hbytes : built.rawData.bytes = sizeBytes m.size ++ wires m.fields) :
    m.Good built ↔ m.size < 2 ^ 16 ∧ built.bodyStart = m.headerSize := by
  have hsplit : wires m.fields = wires (m.header ++ [MessageParts.headerEnd]) ++ wires m.body := by
    simp [wires, MessageParts.fields]
  have htwo : (sizeBytes m.size).length = 2 := rfl
  have hlen : built.rawData.bytes.length = m.size := by
    rw [hbytes, List.length_append, htwo, MessageParts.size]
  have hsize : m.headerSize + (wires m.body).length = m.size := by
    rw [MessageParts.headerSize, MessageParts.size, hsplit, List.length_append, Nat.add_assoc]
  have hfirst : leNat (built.rawData.bytes.take 2) = m.size % 2 ^ 16 := by
    rw [hbytes, List.take_left' htwo, leNat_sizeBytes]
  constructor
  · intro h
    have hbody := h.body.2
    have hpre := h.prefixed
    omega
  · rintro ⟨hlt, hstart⟩
    refine ⟨?_, ⟨?_, by omega⟩, by omega⟩
    · rw [hbytes, List.drop_left' htwo, hsplit]
    · have hfront : (sizeBytes m.size ++ wires (m.header ++ [MessageParts.headerEnd])).length
          = built.bodyStart := by
        rw [List.length_append, htwo, hstart, MessageParts.headerSize]
      rw [hbytes, hsplit, ← List.append_assoc, List.drop_left' hfront]

/-- **The later messages** of a builder: the size of their headers is taken to be that of the
first one. -/
theorem messages_good_iff_of_idle : ∀ (ms : List MessageParts) {b : MessageBuilder}, b.Idle →
    b.inHeader = false → ((∀ p ∈ b.messages ms, p.1.Good p.2) ↔
      ∀ m ∈ fitting b.buffer.capacity ms, m.size < 2 ^ 16 ∧ m.headerSize = b.headerSize) := by
  intro ms
  induction ms with
  | nil =>
    intro b _ _
    simp [messages, fitting]
  | cons m ms ih =>
    intro b hidle hin
    rw [messages, fitting]
    by_cases hroom : m.size ≤ b.buffer.capacity
    · obtain ⟨built, b', hbuild, hidle', hin', hhs, hcap, hstart, hbytes⟩ := build_spec hidle m hroom
      rw [hin] at hhs
      have hhs' : b'.headerSize = b.headerSize := hhs
      have hleft : b.buffer.capacity - m.size = b'.buffer.capacity := by omega
      rw [hbuild, if_pos hroom, hleft]
      simp only [List.forall_mem_cons]
      rw [ih hidle' hin', good_iff hbytes, hstart, hhs', @eq_comm _ b.headerSize]
    · rw [build_eq_none hidle m hroom, if_neg hroom]
      simp

/-- A builder that was just made on an empty pool. -/
theorem idle_create {pool : BufferPool} (hpool : pool.size = 0) {type : MessageType}
    (htype : type ≠ .noHeader) : (create pool type).Idle where
  before := by simpa [create] using htype
  type := htype
  used := by
    apply List.length_eq_zero_iff.mp
    rw [BufferPool.length_used]
    exact hpool

/-- **The messages of a builder.**  They are all right exactly when their headers are all of one
size and their sizes fit in two bytes. -/
theorem messages_good_iff (pool : BufferPool) (hpool : pool.size = 0) (type : MessageType)
    (htype : type ≠ .noHeader) (ms : List MessageParts) :
    (∀ p ∈ (create pool type).messages ms, p.1.Good p.2) ↔
      ∀ m ∈ fitting pool.capacity ms, m.size < 2 ^ 16 ∧
        ∀ m' ∈ fitting pool.capacity ms, m.headerSize = m'.headerSize := by
  have hidle := idle_create hpool htype
  cases ms with
  | nil => simp [messages, fitting]
  | cons m ms =>
    rw [messages, fitting]
    by_cases hroom : m.size ≤ pool.capacity
    · obtain ⟨built, b', hbuild, hidle', hin', hhs, hcap, hstart, hbytes⟩ := build_spec hidle m hroom
      -- the first header sets the size
      have hin : (create pool type).inHeader = true := by simpa [create] using htype
      rw [if_pos hin] at hhs
      have hleft : pool.capacity - m.size = b'.buffer.capacity := by
        have hcap' : b'.buffer.capacity + m.size = pool.capacity := hcap
        omega
      rw [hbuild, if_pos hroom, hleft]
      simp only [List.forall_mem_cons]
      rw [messages_good_iff_of_idle ms hidle' hin', good_iff hbytes, hstart, hhs]
      constructor
      · rintro ⟨⟨hsize, -⟩, hrest⟩
        refine ⟨⟨hsize, trivial, fun m' hm' => (hrest m' hm').2.symm⟩, fun m' hm' => ?_⟩
        refine ⟨(hrest m' hm').1, (hrest m' hm').2, fun m'' hm'' => ?_⟩
        rw [(hrest m' hm').2, (hrest m'' hm'').2]
      · rintro ⟨⟨hsize, -, hsame⟩, hrest⟩
        exact ⟨⟨hsize, rfl⟩, fun m' hm' => ⟨(hrest m' hm').1, (hsame m' hm').symm⟩⟩
    · rw [build_eq_none hidle m hroom, if_neg hroom]
      simp

/-- A message with a header of `n` small fields, and the byte array `hi` as its body. -/
def smallMessage (n : ℕ) : MessageParts where
  header := List.replicate n ⟨1, .int32 5⟩
  body := [⟨7, .bytes [0x68, 0x69]⟩]
  serviceId := 1
  messageId := 2
  header_open := by
    intro f hf
    rw [List.eq_of_mem_replicate hf]
    rintro ⟨-, v, hv⟩
    cases hv

/-- An empty pool of 64 bytes. -/
def smallPool : BufferPool := BufferPool.create 64 (by decide)

/-- Three messages with headers of two fields. -/
theorem messages_good_iff_smallMessage :
    ((create smallPool .headerAndBody).messages (List.replicate 3 (smallMessage 2))).length = 3 ∧
      ∀ p ∈ (create smallPool .headerAndBody).messages (List.replicate 3 (smallMessage 2)),
        p.1.Good p.2 :=
  ⟨by decide +kernel,
    (messages_good_iff smallPool rfl .headerAndBody (by decide) _).mpr (by decide +kernel)⟩

/-- A header of one field, and then one of two. -/
theorem not_messages_good_longerHeader :
    ¬ ∀ p ∈ (create smallPool .headerAndBody).messages [smallMessage 1, smallMessage 2],
      p.1.Good p.2 := by
  intro h
  have hwrong : ∃ p ∈ (create smallPool .headerAndBody).messages [smallMessage 1, smallMessage 2],
      p.2.bodyStart + (wires p.1.body).length ≠ p.2.rawData.bytes.length := by decide +kernel
  obtain ⟨p, hp, hne⟩ := hwrong
  exact hne (h p hp).body.2

end MessageBuilder

end Streaming
