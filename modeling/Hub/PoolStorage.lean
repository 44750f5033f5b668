/-
# The storage of a buffer pool

`Streaming::BufferPool` (`libs/utils/streaming/BufferPool.cpp`) with the arrays that it allocates.
The pool and the `ConstBuffer`s that it hands out share an array, and the last one to let go of it
deletes it.  Bytes that were handed out are never written again: the pool only writes behind them.

When `reserve` moves to a new array, it lets go of the old one before it copies the uncommitted
bytes out of it.  So it works if there are none, or if somebody still holds a slice of the old array,
and if the new size fits into an `int` (`ReserveOk`); a run goes as it should exactly when every
`reserve` in it is such a one (`pool_goes_iff_meets`).
-/
import Hub.BufferPool
import Mathlib.Order.Lattice

namespace Streaming

/-- What can go wrong: an assertion, an `int` that overflows, an array of negative length, and
reading or writing memory that is not there. -/
inductive PoolFault where
  | assertion
  | overflow
  | badLength
  | useAfterFree
  | outOfBounds
  deriving DecidableEq

/-- A `ConstBuffer` that somebody holds: the array, and the offsets in it. -/
structure Slice where
  array : Option ℕ
  start : ℕ
  stop : ℕ
  deriving DecidableEq

/-- `Streaming::BufferPool`, the arrays that were allocated (`none` after `delete[]`), and the
`ConstBuffer`s that are held. -/
structure SharedPool where
  memory : List (Option (List UInt8))
  buffer : Option ℕ
  readPointer : ℕ
  writePointer : ℕ
  defaultSize : ℕ
  size : ℕ
  held : List Slice

/-- `std::ceil(m_size * phi)`, where `phi` is `7286977268806824 / 2 ^ 52` and the product is rounded
to 53 bits, to even. -/
def ceilPhi (size : ℕ) : ℕ :=
  let product := size * 7286977268806824
  let unit := 2 ^ (product.log2 + 1 - 53)
  let quotient := product / unit
  let rest := product % unit
  let rounded :=
    if 2 * rest < unit ∨ (2 * rest = unit ∧ quotient % 2 = 0) then quotient else quotient + 1
  (rounded * unit + (2 ^ 52 - 1)) / 2 ^ 52

namespace SharedPool

/-! ## The operations -/

/-- The contents of an array. -/
def arrayOf (s : SharedPool) (array : Option ℕ) : Option (List UInt8) :=
  array.bind fun id => s.memory[id]?.join

/-- `delete[]`, when a pointer to the array is given up and there is no other. -/
def release (s : SharedPool) (array : Option ℕ) : SharedPool :=
  match array with
  | none => s
  | some id =>
      if s.buffer = some id ∨ ∃ slice ∈ s.held, slice.array = some id then s
      else { s with memory := s.memory.set id none }

/-- A new array for the pool; `fresh` is what is in it. -/
def allocate (fresh : ℕ → ℕ → UInt8) (s : SharedPool) (n : ℕ) : SharedPool :=
  { s with
    memory := s.memory ++ [some ((List.range n).map (fresh s.memory.length))]
    buffer := some s.memory.length }

/-- The constructor. -/
def create (fresh : ℕ → ℕ → UInt8) (default_size : ℕ) : SharedPool :=
  allocate fresh ⟨[], none, 0, 0, default_size, default_size, []⟩ default_size

/-- The source of a `memcpy`. -/
def load (s : SharedPool) (array : Option ℕ) (start stop : ℕ) : Except PoolFault (List UInt8) :=
  if start = stop then .ok []
  else
    match s.arrayOf array with
    | none => .error .useAfterFree
    | some mem => if stop ≤ mem.length then .ok (slice mem start stop) else .error .outOfBounds

/-- The target of a `memcpy` into the array of the pool. -/
def store (s : SharedPool) (offset : ℕ) (bytes : List UInt8) : Except PoolFault SharedPool :=
  match s.buffer, s.arrayOf s.buffer with
  | some id, some mem =>
      if offset + bytes.length ≤ mem.length then
        .ok { s with memory := s.memory.set id (some (writeAt mem offset bytes)) }
      else .error .outOfBounds
  | _, _ => .error .useAfterFree

/-- The size that `change_capacity` computes. -/
def newSize (s : SharedPool) (bytes : ℕ) : ℕ :=
  let unprocessed := s.writePointer - s.readPointer
  if unprocessed + bytes ≤ s.defaultSize then s.defaultSize
  else max (bytes + unprocessed) (ceilPhi s.size)

/-- `change_capacity`.  The pool lets go of the old array first, and copies from it then. -/
def changeCapacity (fresh : ℕ → ℕ → UInt8) (s : SharedPool) (bytes : ℕ) :
    Except PoolFault SharedPool :=
  let unprocessed := s.writePointer - s.readPointer
  if ¬ s.readPointer ≤ s.writePointer then .error .assertion
  else if 2 ^ 31 ≤ unprocessed + bytes then .error .overflow
  else if 2 ^ 31 ≤ s.newSize bytes then .error .badLength
  else do
    let s' := { (s.allocate fresh (s.newSize bytes)).release s.buffer with size := s.newSize bytes }
    let copied ← s'.load s.buffer s.readPointer s.writePointer
    let s' ← s'.store 0 copied
    .ok { s' with readPointer := 0, writePointer := unprocessed }

/-- `reserve`. -/
def reserve (fresh : ℕ → ℕ → UInt8) (s : SharedPool) (bytes : ℕ) : Except PoolFault SharedPool :=
  let s := if s.buffer = none then
      { s.allocate fresh s.size with readPointer := 0, writePointer := 0 }
    else s
  if ¬ s.writePointer ≤ s.size then .error .assertion
  else if s.size - s.writePointer < bytes then s.changeCapacity fresh bytes
  else .ok s

/-- `markUsed`. -/
def markUsed (s : SharedPool) (bytecount : ℕ) : Except PoolFault SharedPool :=
  if ¬ (s.writePointer + bytecount ≤ s.size ∧ s.readPointer ≤ s.writePointer + bytecount) then
    .error .assertion
  else .ok { s with writePointer := s.writePointer + bytecount }

/-- `commit`. -/
def commit (s : SharedPool) (usedBytes : ℕ) : Except PoolFault SharedPool :=
  if ¬ (s.writePointer + usedBytes ≤ s.size ∧ s.readPointer ≤ s.writePointer + usedBytes) then
    .error .assertion
  else .ok { s with
    writePointer := s.writePointer + usedBytes
    readPointer := s.writePointer + usedBytes
    held := s.held ++ [⟨s.buffer, s.readPointer, s.writePointer + usedBytes⟩] }

/-- `createBufferSlice`. -/
def createBufferSlice (s : SharedPool) (start stop : ℕ) : Except PoolFault SharedPool :=
  if ¬ (start ≤ stop ∧ s.readPointer ≤ start ∧ start ≤ s.writePointer ∧ s.readPointer ≤ stop ∧
      stop ≤ s.writePointer) then .error .assertion
  else .ok { s with held := s.held ++ [⟨s.buffer, start, stop⟩] }

/-- `forget`. -/
def forget (s : SharedPool) (rc : ℕ) : Except PoolFault SharedPool :=
  if ¬ s.readPointer + rc ≤ s.size then .error .assertion
  else .ok { s with readPointer := s.readPointer + rc }

/-- `clear`. -/
def clear (s : SharedPool) : SharedPool :=
  { s with buffer := none, readPointer := 0, writePointer := 0, size := s.defaultSize }.release
    s.buffer

/-- Somebody lets go of a `ConstBuffer`. -/
def letGo (s : SharedPool) (k : ℕ) : SharedPool :=
  match s.held[k]? with
  | none => s
  | some slice => { s with held := s.held.eraseIdx k }.release slice.array

/-- The operations; a write goes to `data()`. -/
inductive Op where
  | reserve (bytes : ℕ)
  | write (bytes : List UInt8)
  | markUsed (bytecount : ℕ)
  | commit (usedBytes : ℕ)
  | createBufferSlice (start stop : ℕ)
  | forget (rc : ℕ)
  | clearReserve (bytes : ℕ)
  | letGo (k : ℕ)

def step (fresh : ℕ → ℕ → UInt8) (s : SharedPool) : Op → Except PoolFault SharedPool
  | .reserve bytes => s.reserve fresh bytes
  | .write bytes => s.store s.writePointer bytes
  | .markUsed bytecount => s.markUsed bytecount
  | .commit usedBytes => s.commit usedBytes
  | .createBufferSlice start stop => s.createBufferSlice start stop
  | .forget rc => s.forget rc
  | .clearReserve bytes => s.clear.reserve fresh bytes
  | .letGo k => .ok (s.letGo k)

/-! ## What a run should do -/

/-- `capacity`. -/
def capacity (s : SharedPool) : ℕ := s.size - s.writePointer

/-- The bytes of a `ConstBuffer`. -/
def content (s : SharedPool) (slice : Slice) : Option (List UInt8) :=
  (s.arrayOf slice.array).map fun mem => Streaming.slice mem slice.start slice.stop

/-- The bytes from `begin()` to `end()`. -/
def uncommitted (s : SharedPool) : Option (List UInt8) :=
  s.content ⟨s.buffer, s.readPointer, s.writePointer⟩

/-- How the operations are used. -/
def Allowed (s : SharedPool) : Op → Prop
  | .reserve bytes => bytes < 2 ^ 30
  | .write bytes => bytes.length < 2 ^ 30 ∧ bytes.length ≤ s.capacity
  | .markUsed bytecount => bytecount < 2 ^ 30 ∧ bytecount ≤ s.capacity
  | .commit usedBytes => usedBytes < 2 ^ 30 ∧ usedBytes ≤ s.capacity
  | .createBufferSlice start stop => s.readPointer ≤ start ∧ start ≤ stop ∧ stop ≤ s.writePointer
  | .forget rc => rc < 2 ^ 30 ∧ rc ≤ s.writePointer - s.readPointer
  | .clearReserve bytes => bytes < 2 ^ 30
  | .letGo _ => True

/-- What a step should do: `reserve` makes room and keeps the uncommitted bytes, and the
`ConstBuffer`s that are held keep theirs. -/
structure Good (s : SharedPool) (op : Op) (s' : SharedPool) : Prop where
  kept : ∀ slice ∈ s.held, slice ∈ s'.held → s'.content slice = s.content slice
  room : ∀ bytes, op = .reserve bytes → bytes ≤ s'.capacity ∧ s'.uncommitted = s.uncommitted
  roomAgain : ∀ bytes, op = .clearReserve bytes → bytes ≤ s'.capacity

/-- A run of operations, each used as allowed, goes through and does what it should. -/
def Goes (fresh : ℕ → ℕ → UInt8) : SharedPool → List Op → Prop
  | _, [] => True
  | s, op :: ops => s.Allowed op →
      ∃ s', s.step fresh op = .ok s' ∧ s.Good op s' ∧ Goes fresh s' ops

/-- There is room already; or there is nothing to copy, or somebody holds the array, and the new
size is an `int`. -/
def ReserveOk (s : SharedPool) (bytes : ℕ) : Prop :=
  bytes ≤ s.capacity ∨
    ((s.readPointer = s.writePointer ∨ ∃ slice ∈ s.held, slice.array = s.buffer) ∧
      (s.writePointer - s.readPointer + bytes ≤ s.defaultSize ∨
        (s.writePointer - s.readPointer + bytes < 2 ^ 31 ∧ ceilPhi s.size < 2 ^ 31)))

instance (s : SharedPool) (bytes : ℕ) : Decidable (s.ReserveOk bytes) :=
  inferInstanceAs (Decidable (_ ∨ _))

/-- Every `reserve` of the run, used as allowed, is such a one. -/
def Meets (fresh : ℕ → ℕ → UInt8) : SharedPool → List Op → Prop
  | _, [] => True
  | s, op :: ops => s.Allowed op → (∀ bytes, op = .reserve bytes → s.ReserveOk bytes) ∧
      ∀ s', s.step fresh op = .ok s' → Meets fresh s' ops

/-! ## Arrays -/

section

variable {s : SharedPool} {a : Option ℕ} {mem : List UInt8} {fresh : ℕ → ℕ → UInt8}

@[simp] theorem release_buffer (s : SharedPool) (a : Option ℕ) : (s.release a).buffer = s.buffer := by
  unfold release
  split
  · rfl
  · split <;> rfl

@[simp] theorem release_readPointer (s : SharedPool) (a : Option ℕ) :
    (s.release a).readPointer = s.readPointer := by
  unfold release
  split
  · rfl
  · split <;> rfl

@[simp] theorem release_writePointer (s : SharedPool) (a : Option ℕ) :
    (s.release a).writePointer = s.writePointer := by
  unfold release
  split
  · rfl
  · split <;> rfl

@[simp] theorem release_defaultSize (s : SharedPool) (a : Option ℕ) :
    (s.release a).defaultSize = s.defaultSize := by
  unfold release
  split
  · rfl
  · split <;> rfl

@[simp] theorem release_size (s : SharedPool) (a : Option ℕ) : (s.release a).size = s.size := by
  unfold release
  split
  · rfl
  · split <;> rfl

@[simp] theorem release_held (s : SharedPool) (a : Option ℕ) : (s.release a).held = s.held := by
  unfold release
  split
  · rfl
  · split <;> rfl

/-- An array that is referred to is not deleted. -/
theorem arrayOf_release (array : Option ℕ)
    (href : s.buffer = a ∨ ∃ slice ∈ s.held, slice.array = a) :
    (s.release array).arrayOf a = s.arrayOf a := by
  cases array with
  | none => rfl
  | some id =>
    rw [release]
    split
    · rfl
    · next hno =>
      cases a with
      | none => rfl
      | some id' =>
        have hne : id ≠ id' := by
          rintro rfl
          exact hno href
        rw [arrayOf, arrayOf, Option.bind_some, Option.bind_some, List.getElem?_set_ne hne]

/-- An array that is not referred to is deleted. -/
theorem arrayOf_release_freed (hno : ¬ (s.buffer = a ∨ ∃ slice ∈ s.held, slice.array = a)) :
    (s.release a).arrayOf a = none := by
  cases a with
  | none => rfl
  | some id =>
    rw [release, if_neg hno, arrayOf, Option.bind_some, List.getElem?_set]
    rw [if_pos rfl]
    split <;> rfl

theorem lt_of_arrayOf (h : s.arrayOf a = some mem) : ∃ id, a = some id ∧ id < s.memory.length := by
  obtain ⟨id, rfl, hid⟩ := Option.bind_eq_some_iff.mp h
  refine ⟨id, rfl, ?_⟩
  by_contra hge
  rw [List.getElem?_eq_none (Nat.le_of_not_lt hge)] at hid
  cases hid

theorem arrayOf_allocate (n : ℕ) (h : s.arrayOf a = some mem) :
    (s.allocate fresh n).arrayOf a = some mem := by
  obtain ⟨id, rfl, hlt⟩ := lt_of_arrayOf h
  rw [arrayOf, Option.bind_some] at h ⊢
  rw [allocate, List.getElem?_append_left hlt]
  exact h

theorem arrayOf_allocate_new (n : ℕ) : (s.allocate fresh n).arrayOf (s.allocate fresh n).buffer =
    some ((List.range n).map (fresh s.memory.length)) := by
  rw [arrayOf, allocate, Option.bind_some, List.getElem?_append_right le_rfl, Nat.sub_self]
  rfl

/-- Writing into the array of the pool. -/
theorem store_spec (offset : ℕ) (bytes : List UInt8) (h : s.arrayOf s.buffer = some mem)
    (hfit : offset + bytes.length ≤ mem.length) :
    ∃ memory, s.store offset bytes = .ok { s with memory := memory } ∧
      arrayOf { s with memory := memory } s.buffer = some (writeAt mem offset bytes) ∧
      ∀ a ≠ s.buffer, arrayOf { s with memory := memory } a = s.arrayOf a := by
  obtain ⟨id, hid, hlt⟩ := lt_of_arrayOf h
  refine ⟨s.memory.set id (some (writeAt mem offset bytes)), ?_, ?_, ?_⟩
  · rw [store, h, hid]
    exact if_pos hfit
  · rw [hid, arrayOf, Option.bind_some, List.getElem?_set_self hlt]
    rfl
  · intro a hne
    cases a with
    | none => rfl
    | some id' =>
      have hne' : id ≠ id' := by
        rintro rfl
        exact hne hid.symm
      rw [arrayOf, arrayOf, Option.bind_some, Option.bind_some, List.getElem?_set_ne hne']

end

/-- Bytes in front of a write stay. -/
theorem slice_writeAt_of_le {mem bytes : List UInt8} {i start stop : ℕ} (h : stop ≤ i)
    (hi : i ≤ mem.length) :
    Streaming.slice (writeAt mem i bytes) start stop = Streaming.slice mem start stop := by
  have hlen : stop ≤ (mem.take i).length := by
    rw [List.length_take]
    omega
  rw [Streaming.slice, Streaming.slice, writeAt, List.append_assoc, List.take_append_of_le_length hlen,
    List.take_take, Nat.min_eq_left h]

/-! ## The invariant -/

/-- A `ConstBuffer` that is held: its array is there, and the pool writes only behind it. -/
def Fits (s : SharedPool) (slice : Slice) : Prop :=
  ∃ mem, s.arrayOf slice.array = some mem ∧ slice.stop ≤ mem.length ∧
    (slice.array = s.buffer → slice.stop ≤ s.writePointer)

/-- A pool between two operations. -/
structure Sound (s : SharedPool) : Prop where
  live : ∃ mem, s.arrayOf s.buffer = some mem ∧ mem.length = s.size
  read_le : s.readPointer ≤ s.writePointer
  write_le : s.writePointer ≤ s.size
  size_lt : s.size < 2 ^ 31
  default_lt : s.defaultSize < 2 ^ 30
  held : ∀ slice ∈ s.held, s.Fits slice

variable {s : SharedPool} {fresh : ℕ → ℕ → UInt8}

theorem sound_create (fresh : ℕ → ℕ → UInt8) {default_size : ℕ} (h : default_size < 2 ^ 30) :
    (create fresh default_size).Sound where
  live := by
    refine ⟨_, arrayOf_allocate_new default_size, ?_⟩
    rw [List.length_map, List.length_range]
    rfl
  read_le := le_rfl
  write_le := Nat.zero_le _
  size_lt := by
    change default_size < 2 ^ 31
    omega
  default_lt := h
  held := by
    intro slice hslice
    cases hslice

/-! ### Making room -/

theorem le_newSize (s : SharedPool) (bytes : ℕ) :
    s.writePointer - s.readPointer + bytes ≤ s.newSize bytes := by
  rw [newSize]
  split
  · next h => exact h
  · rw [Nat.add_comm]
    exact le_max_left _ _

/-- A new array with the uncommitted bytes of the old one, when that is still there. -/
theorem Sound.changeCapacity (h : s.Sound) {bytes : ℕ}
    (hheld : s.readPointer = s.writePointer ∨ ∃ slice ∈ s.held, slice.array = s.buffer)
    (hsum : s.writePointer - s.readPointer + bytes < 2 ^ 31) (hsize : s.newSize bytes < 2 ^ 31) :
    ∃ s', s.changeCapacity fresh bytes = .ok s' ∧ s'.Sound ∧ s'.held = s.held ∧
      (∀ slice ∈ s.held, s'.content slice = s.content slice) ∧ bytes ≤ s'.capacity ∧
      s'.uncommitted = s.uncommitted := by
  obtain ⟨mem, hmem, hlen⟩ := h.live
  have hread := h.read_le
  have hwrite := h.write_le
  have hroom := s.le_newSize bytes
  -- the pool with the new array, when the old one has been given up
  have hnew : arrayOf { (s.allocate fresh (s.newSize bytes)).release s.buffer with
      size := s.newSize bytes } (some s.memory.length) =
        some ((List.range (s.newSize bytes)).map (fresh s.memory.length)) :=
    (arrayOf_release s.buffer (.inl rfl)).trans (arrayOf_allocate_new (s.newSize bytes))
  have hold : ∀ slice ∈ s.held, ∀ mem', s.arrayOf slice.array = some mem' →
      arrayOf { (s.allocate fresh (s.newSize bytes)).release s.buffer with
        size := s.newSize bytes } slice.array = some mem' := by
    intro slice hslice mem' hmem'
    exact (arrayOf_release (s := s.allocate fresh (s.newSize bytes)) s.buffer
      (.inr ⟨slice, hslice, rfl⟩)).trans (arrayOf_allocate (s.newSize bytes) hmem')
  generalize hs₁ : { (s.allocate fresh (s.newSize bytes)).release s.buffer with
    size := s.newSize bytes } = s₁ at hnew hold
  have hbuffer : s₁.buffer = some s.memory.length := by
    rw [← hs₁]
    exact release_buffer _ _
  have hheld₁ : s₁.held = s.held := by
    rw [← hs₁]
    exact release_held _ _
  have hdefault₁ : s₁.defaultSize = s.defaultSize := by
    rw [← hs₁]
    exact release_defaultSize _ _
  have hsize₁ : s₁.size = s.newSize bytes := by rw [← hs₁]
  have hcopied : s₁.load s.buffer s.readPointer s.writePointer =
      .ok (Streaming.slice mem s.readPointer s.writePointer) := by
    rw [load]
    by_cases hempty : s.readPointer = s.writePointer
    · rw [if_pos hempty, Streaming.slice, List.drop_of_length_le]
      rw [List.length_take]
      omega
    · obtain ⟨slice, hslice, harray⟩ := hheld.resolve_left hempty
      rw [if_neg hempty, ← harray, hold slice hslice mem (harray ▸ hmem)]
      exact if_pos (by omega)
  have hcopiedLength : (Streaming.slice mem s.readPointer s.writePointer).length =
      s.writePointer - s.readPointer := by
    rw [Streaming.slice, List.length_drop, List.length_take]
    omega
  rw [← hbuffer] at hnew
  have hfit : 0 + (Streaming.slice mem s.readPointer s.writePointer).length ≤
      ((List.range (s.newSize bytes)).map (fresh s.memory.length)).length := by
    rw [hcopiedLength, List.length_map, List.length_range]
    omega
  obtain ⟨memory, hstore, hwritten, hothers⟩ := store_spec 0 _ hnew hfit
  -- nobody else has the new array
  have hkept : ∀ slice ∈ s.held, ∀ mem', s.arrayOf slice.array = some mem' →
      slice.array ≠ s₁.buffer ∧ arrayOf { s₁ with memory := memory } slice.array = some mem' := by
    intro slice hslice mem' hmem'
    obtain ⟨id, hid, hlt⟩ := lt_of_arrayOf hmem'
    have hne : slice.array ≠ s₁.buffer := by
      rw [hid, hbuffer]
      intro hsame
      exact absurd (Option.some.inj hsame) hlt.ne
    exact ⟨hne, (hothers _ hne).trans (hold slice hslice mem' hmem')⟩
  refine ⟨{ s₁ with
    memory := memory
    readPointer := 0
    writePointer := s.writePointer - s.readPointer }, ?_, ?_, hheld₁, ?_, ?_, ?_⟩
  · rw [SharedPool.changeCapacity, if_neg (not_not.mpr hread), if_neg (Nat.not_le.mpr hsum),
      if_neg (Nat.not_le.mpr hsize), hs₁]
    change (s₁.load s.buffer s.readPointer s.writePointer >>= fun copied => _) = _
    rw [hcopied]
    change (s₁.store 0 (Streaming.slice mem s.readPointer s.writePointer) >>= fun s' => _) = _
    rw [hstore]
    rfl
  · refine ⟨⟨_, hwritten, ?_⟩, Nat.zero_le _, ?_, ?_, ?_, ?_⟩
    · rw [length_writeAt hfit, List.length_map, List.length_range]
      exact hsize₁.symm
    · change s.writePointer - s.readPointer ≤ s₁.size
      omega
    · change s₁.size < 2 ^ 31
      omega
    · change s₁.defaultSize < 2 ^ 30
      rw [hdefault₁]
      exact h.default_lt
    · intro slice hslice
      change slice ∈ s₁.held at hslice
      rw [hheld₁] at hslice
      obtain ⟨mem', hmem', hstop, -⟩ := h.held slice hslice
      obtain ⟨hne, harray⟩ := hkept slice hslice mem' hmem'
      exact ⟨mem', harray, hstop, fun hsame => absurd hsame hne⟩
  · intro slice hslice
    obtain ⟨mem', hmem', -⟩ := h.held slice hslice
    have harray := (hkept slice hslice mem' hmem').2
    rw [content, content, hmem']
    exact congrArg (Option.map _) harray
  · change bytes ≤ s₁.size - (s.writePointer - s.readPointer)
    omega
  · have hread' : Streaming.slice (writeAt ((List.range (s.newSize bytes)).map
        (fresh s.memory.length)) 0 (Streaming.slice mem s.readPointer s.writePointer)) 0
          (s.writePointer - s.readPointer) =
            Streaming.slice mem s.readPointer s.writePointer := by
      rw [Streaming.slice, List.drop_zero, writeAt, List.take_zero, List.nil_append,
        List.take_append_of_le_length hcopiedLength.ge, List.take_of_length_le hcopiedLength.le]
    have hafter : uncommitted { s₁ with
        memory := memory
        readPointer := 0
        writePointer := s.writePointer - s.readPointer } =
          some (Streaming.slice mem s.readPointer s.writePointer) := by
      rw [← hread']
      exact congrArg (Option.map _) hwritten
    rw [hafter, uncommitted, content, hmem, Option.map_some]

/-- A pool that has an array goes straight to the capacity. -/
theorem Sound.reserve_eq (h : s.Sound) (bytes : ℕ) : s.reserve fresh bytes =
    if s.capacity < bytes then s.changeCapacity fresh bytes else .ok s := by
  obtain ⟨mem, hmem, -⟩ := h.live
  obtain ⟨id, hid, -⟩ := lt_of_arrayOf hmem
  have hbuffer : s.buffer ≠ none := by
    rw [hid]
    exact Option.some_ne_none id
  rw [SharedPool.reserve, if_neg hbuffer]
  exact if_neg (not_not.mpr h.write_le)

variable (fresh) in
theorem Sound.reserve (h : s.Sound) {bytes : ℕ} (hok : s.ReserveOk bytes) :
    ∃ s', s.reserve fresh bytes = .ok s' ∧ s'.Sound ∧ s'.held = s.held ∧
      (∀ slice ∈ s.held, s'.content slice = s.content slice) ∧ bytes ≤ s'.capacity ∧
      s'.uncommitted = s.uncommitted := by
  rw [h.reserve_eq]
  by_cases hroom : s.capacity < bytes
  · rw [if_pos hroom]
    obtain ⟨hheld, hsize⟩ := hok.resolve_left (Nat.not_le.mpr hroom)
    have hdefault := h.default_lt
    apply h.changeCapacity hheld
    · obtain hle | ⟨hlt, -⟩ := hsize
      · omega
      · exact hlt
    · rw [newSize]
      split
      · omega
      · next hgt =>
        obtain ⟨hlt, hphi⟩ := hsize.resolve_left hgt
        exact max_lt (Nat.add_comm _ bytes ▸ hlt) hphi
  · rw [if_neg hroom]
    exact ⟨s, rfl, h, rfl, fun _ _ => rfl, Nat.not_lt.mp hroom, rfl⟩

/-- Otherwise the sizes do not fit, or the bytes to copy are gone. -/
theorem Sound.reserve_ne_ok (h : s.Sound) {bytes : ℕ} (hno : ¬ s.ReserveOk bytes)
    (s' : SharedPool) : s.reserve fresh bytes ≠ .ok s' := by
  obtain ⟨hroom, hno⟩ := not_or.mp hno
  rw [h.reserve_eq, if_pos (Nat.not_le.mp hroom), SharedPool.changeCapacity,
    if_neg (not_not.mpr h.read_le)]
  split
  · exact nofun
  · next hsum =>
    split
    · exact nofun
    · next hsize =>
      have hfits : s.writePointer - s.readPointer + bytes ≤ s.defaultSize ∨
          (s.writePointer - s.readPointer + bytes < 2 ^ 31 ∧ ceilPhi s.size < 2 ^ 31) := by
        rw [newSize] at hsize
        split at hsize
        · next hle => exact .inl hle
        · exact .inr ⟨Nat.not_le.mp hsum, (max_lt_iff.mp (Nat.not_le.mp hsize)).2⟩
      obtain ⟨hempty, hnobody⟩ := not_or.mp fun hheld => hno ⟨hheld, hfits⟩
      obtain ⟨mem, hmem, -⟩ := h.live
      obtain ⟨id, hid, hlt⟩ := lt_of_arrayOf hmem
      -- nobody else has the old array, and the pool has a new one
      have hfreed : ((s.allocate fresh (s.newSize bytes)).release s.buffer).arrayOf s.buffer =
          none := by
        apply arrayOf_release_freed
        rintro (hsame | hheld)
        · rw [hid] at hsame
          exact absurd (Option.some.inj hsame) hlt.ne'
        · exact hnobody hheld
      have hload : load { (s.allocate fresh (s.newSize bytes)).release s.buffer with
          size := s.newSize bytes } s.buffer s.readPointer s.writePointer =
            .error .useAfterFree := by
        rw [load, if_neg hempty]
        change (match ((s.allocate fresh (s.newSize bytes)).release s.buffer).arrayOf s.buffer with
          | none => Except.error PoolFault.useAfterFree
          | some mem => if s.writePointer ≤ mem.length then _ else _) = _
        rw [hfreed]
      change (load { (s.allocate fresh (s.newSize bytes)).release s.buffer with
        size := s.newSize bytes } s.buffer s.readPointer s.writePointer >>= fun copied => _) ≠ _
      rw [hload]
      exact nofun

/-- The default size can always be enlarged once. -/
theorem ceilPhi_lt {size : ℕ} (h : size < 2 ^ 30) : ceilPhi size < 2 ^ 31 := by
  rw [ceilPhi]
  generalize hproduct : size * 7286977268806824 = product
  have hlt : product < 2 ^ 83 - 2 ^ 53 := by omega
  have hlog : product.log2 < 83 := by
    by_cases hzero : product = 0
    · rw [hzero]
      decide
    · exact (Nat.log2_lt hzero).mpr (by omega)
  have hunit : 2 ^ (product.log2 + 1 - 53) ≤ 2 ^ 30 :=
    Nat.pow_le_pow_right (by decide) (by omega)
  generalize 2 ^ (product.log2 + 1 - 53) = unit at hunit
  have hdown : product / unit * unit ≤ product := Nat.div_mul_le_self product unit
  have hup : (product / unit + 1) * unit ≤ product + unit := by
    rw [Nat.add_mul, Nat.one_mul]
    omega
  apply Nat.div_lt_of_lt_mul
  split
  · omega
  · omega

/-! ### The other operations -/

/-- What an operation keeps that leaves the arrays and the pool's array as they are. -/
theorem Sound.fits_of_le (h : s.Sound) {slice : Slice} (hslice : slice ∈ s.held) {w : ℕ}
    (hw : s.writePointer ≤ w) : Fits { s with writePointer := w } slice := by
  obtain ⟨mem, hmem, hstop, hbehind⟩ := h.held slice hslice
  exact ⟨mem, hmem, hstop, fun hsame => (hbehind hsame).trans hw⟩

theorem Sound.write (h : s.Sound) {bytes : List UInt8} (hroom : bytes.length ≤ s.capacity) :
    ∃ s', s.store s.writePointer bytes = .ok s' ∧ s'.Sound ∧
      ∀ slice ∈ s.held, s'.content slice = s.content slice := by
  obtain ⟨mem, hmem, hlen⟩ := h.live
  have hwrite := h.write_le
  rw [capacity] at hroom
  have hfit : s.writePointer + bytes.length ≤ mem.length := by omega
  obtain ⟨memory, hstore, hwritten, hothers⟩ := store_spec s.writePointer bytes hmem hfit
  refine ⟨_, hstore, ⟨⟨_, hwritten, ?_⟩, h.read_le, h.write_le, h.size_lt, h.default_lt, ?_⟩, ?_⟩
  · rw [length_writeAt hfit]
    exact hlen
  · intro slice hslice
    obtain ⟨mem', hmem', hstop, hbehind⟩ := h.held slice hslice
    by_cases hsame : slice.array = s.buffer
    · refine ⟨_, hsame ▸ hwritten, ?_, hbehind⟩
      rw [length_writeAt hfit]
      have := hbehind hsame
      omega
    · exact ⟨mem', (hothers _ hsame).trans hmem', hstop, hbehind⟩
  · intro slice hslice
    obtain ⟨mem', hmem', -, hbehind⟩ := h.held slice hslice
    by_cases hsame : slice.array = s.buffer
    · -- the slice ends in front of the write
      have hstop := hbehind hsame
      rw [content, content, hsame, hwritten, hmem, Option.map_some, Option.map_some,
        slice_writeAt_of_le hstop (by omega)]
    · rw [content, content, hothers _ hsame]

theorem Sound.markUsed (h : s.Sound) {bytecount : ℕ} (hroom : bytecount ≤ s.capacity) :
    s.markUsed bytecount = .ok { s with writePointer := s.writePointer + bytecount } ∧
      Sound { s with writePointer := s.writePointer + bytecount } := by
  have hread := h.read_le
  have hwrite := h.write_le
  rw [capacity] at hroom
  refine ⟨?_, h.live, ?_, ?_, h.size_lt, h.default_lt, ?_⟩
  · rw [SharedPool.markUsed, if_neg]
    omega
  · exact hread.trans (Nat.le_add_right _ _)
  · change s.writePointer + bytecount ≤ s.size
    omega
  · intro slice hslice
    exact h.fits_of_le hslice (Nat.le_add_right _ _)

/-- A slice of the bytes in front of `data()` fits. -/
theorem Sound.createBufferSlice (h : s.Sound) (start stop : ℕ) (hread : s.readPointer ≤ start)
    (hle : start ≤ stop) (hwrite : stop ≤ s.writePointer) :
    s.createBufferSlice start stop = .ok { s with held := s.held ++ [⟨s.buffer, start, stop⟩] } ∧
      Sound { s with held := s.held ++ [⟨s.buffer, start, stop⟩] } := by
  refine ⟨?_, h.live, h.read_le, h.write_le, h.size_lt, h.default_lt, ?_⟩
  · rw [SharedPool.createBufferSlice, if_neg]
    omega
  · intro slice hslice
    obtain hslice | hslice := List.mem_append.mp hslice
    · exact h.held slice hslice
    · obtain rfl := List.mem_singleton.mp hslice
      obtain ⟨mem, hmem, hlen⟩ := h.live
      refine ⟨mem, hmem, ?_, fun _ => hwrite⟩
      rw [hlen]
      exact hwrite.trans h.write_le

theorem Sound.forget (h : s.Sound) {rc : ℕ} (hle : rc ≤ s.writePointer - s.readPointer) :
    s.forget rc = .ok { s with readPointer := s.readPointer + rc } ∧
      Sound { s with readPointer := s.readPointer + rc } := by
  have hread := h.read_le
  have hwrite := h.write_le
  refine ⟨?_, h.live, ?_, h.write_le, h.size_lt, h.default_lt, h.held⟩
  · rw [SharedPool.forget, if_neg]
    omega
  · change s.readPointer + rc ≤ s.writePointer
    omega

/-- `commit` is `markUsed`, `createBufferSlice` from `begin()` to `end()`, and `forget`. -/
theorem Sound.commit (h : s.Sound) {usedBytes : ℕ} (hroom : usedBytes ≤ s.capacity) :
    ∃ s', s.commit usedBytes = .ok s' ∧ s'.Sound ∧ s'.memory = s.memory := by
  obtain ⟨hmark, hmarked⟩ := h.markUsed hroom
  have hread := h.read_le
  obtain ⟨-, hsliced⟩ := hmarked.createBufferSlice s.readPointer
    (s.writePointer + usedBytes) le_rfl (hread.trans (Nat.le_add_right _ _)) le_rfl
  refine ⟨_, if_neg ?_, ⟨hsliced.live, le_rfl, hsliced.write_le, hsliced.size_lt,
    hsliced.default_lt, hsliced.held⟩, rfl⟩
  have hwrite := hmarked.write_le
  change s.writePointer + usedBytes ≤ s.size at hwrite
  omega

/-- Letting go of a `ConstBuffer` leaves what the others and the pool refer to. -/
theorem Sound.letGo (h : s.Sound) (k : ℕ) : (s.letGo k).Sound ∧
    ∀ slice ∈ (s.letGo k).held, (s.letGo k).content slice = s.content slice := by
  rw [SharedPool.letGo]
  split
  · exact ⟨h, fun _ _ => rfl⟩
  · next gone _ =>
    generalize hs₁ : ({ s with held := s.held.eraseIdx k } : SharedPool) = s₁
    have hbuffer : (s₁.release gone.array).arrayOf s.buffer = s.arrayOf s.buffer := by
      rw [arrayOf_release _ (.inl (by rw [← hs₁])), ← hs₁]
      rfl
    have hheld : ∀ slice ∈ s₁.held, slice ∈ s.held ∧
        (s₁.release gone.array).arrayOf slice.array = s.arrayOf slice.array := by
      intro slice hslice
      rw [arrayOf_release _ (.inr ⟨slice, hslice, rfl⟩), ← hs₁]
      rw [← hs₁] at hslice
      exact ⟨List.mem_of_mem_eraseIdx hslice, rfl⟩
    obtain ⟨mem, hmem, hlen⟩ := h.live
    subst hs₁
    refine ⟨⟨⟨mem, ?_, ?_⟩, ?_, ?_, ?_, ?_, ?_⟩, ?_⟩
    · rw [release_buffer]
      exact hbuffer.trans hmem
    · rw [release_size]
      exact hlen
    · rw [release_readPointer, release_writePointer]
      exact h.read_le
    · rw [release_writePointer, release_size]
      exact h.write_le
    · rw [release_size]
      exact h.size_lt
    · rw [release_defaultSize]
      exact h.default_lt
    · intro slice hslice
      rw [release_held] at hslice
      obtain ⟨hmember, harray⟩ := hheld slice hslice
      obtain ⟨mem', hmem', hstop, hbehind⟩ := h.held slice hmember
      rw [Fits, release_buffer, release_writePointer]
      exact ⟨mem', harray.trans hmem', hstop, hbehind⟩
    · intro slice hslice
      rw [release_held] at hslice
      rw [content, content, (hheld slice hslice).2]

variable (fresh) in
/-- After `clear` the pool starts again with an array of the default size. -/
theorem Sound.clearReserve (h : s.Sound) {bytes : ℕ} (hbytes : bytes < 2 ^ 30) :
    ∃ s', s.clear.reserve fresh bytes = .ok s' ∧ s'.Sound ∧ s'.held = s.held ∧
      (∀ slice ∈ s.held, s'.content slice = s.content slice) ∧ bytes ≤ s'.capacity := by
  have hdefault := h.default_lt
  have hbuffer : s.clear.buffer = none := release_buffer _ _
  have hheld : s.clear.held = s.held := release_held _ _
  have hread : s.clear.readPointer = 0 := release_readPointer _ _
  have hwrite : s.clear.writePointer = 0 := release_writePointer _ _
  have hsize : s.clear.size = s.defaultSize := release_size _ _
  have hdefault' : s.clear.defaultSize = s.defaultSize := release_defaultSize _ _
  have harrays : ∀ slice ∈ s.held, s.clear.arrayOf slice.array = s.arrayOf slice.array := by
    intro slice hslice
    exact arrayOf_release _ (.inr ⟨slice, hslice, rfl⟩)
  generalize s.clear = s₁ at hbuffer hheld hread hwrite hsize hdefault' harrays
  have hallocated : s₁.reserve fresh bytes = SharedPool.reserve fresh
      { s₁.allocate fresh s₁.size with readPointer := 0, writePointer := 0 } bytes := by
    rw [SharedPool.reserve, if_pos hbuffer]
    rfl
  have hkept : ∀ slice ∈ s.held, ∀ mem, s.arrayOf slice.array = some mem →
      (s₁.allocate fresh s₁.size).arrayOf slice.array = some mem := by
    intro slice hslice mem hmem
    exact arrayOf_allocate s₁.size ((harrays slice hslice).trans hmem)
  have hsound : Sound
      { s₁.allocate fresh s₁.size with readPointer := 0, writePointer := 0 } := by
    refine ⟨⟨_, arrayOf_allocate_new s₁.size, ?_⟩, le_rfl, Nat.zero_le _, ?_, ?_, ?_⟩
    · rw [List.length_map, List.length_range]
      rfl
    · change s₁.size < 2 ^ 31
      omega
    · change s₁.defaultSize < 2 ^ 30
      omega
    · intro slice hslice
      change slice ∈ s₁.held at hslice
      rw [hheld] at hslice
      obtain ⟨mem, hmem, hstop, -⟩ := h.held slice hslice
      refine ⟨mem, hkept slice hslice mem hmem, hstop, ?_⟩
      intro hsame
      -- nobody else has the new array
      obtain ⟨id, hid, hlt⟩ := lt_of_arrayOf ((harrays slice hslice).trans hmem)
      rw [hid] at hsame
      exact absurd (Option.some.inj hsame) hlt.ne
  have hok : ReserveOk { s₁.allocate fresh s₁.size with readPointer := 0, writePointer := 0 }
      bytes := by
    refine .inr ⟨.inl rfl, .inr ⟨?_, ?_⟩⟩
    · change 0 - 0 + bytes < 2 ^ 31
      omega
    · apply ceilPhi_lt
      change s₁.size < 2 ^ 30
      omega
  obtain ⟨s', hs', hsound', hheld', hcontent, hroom, -⟩ := hsound.reserve fresh hok
  refine ⟨s', hallocated.trans hs', hsound', hheld'.trans hheld, ?_, hroom⟩
  intro slice hslice
  obtain ⟨mem, hmem, -⟩ := h.held slice hslice
  rw [hcontent slice (hheld ▸ hslice), content, content, hmem]
  exact congrArg (Option.map _) (hkept slice hslice mem hmem)

/-! ## Runs -/

variable (fresh) in
/-- Every operation but a careless `reserve` does what it should. -/
theorem Sound.step (h : s.Sound) {op : Op} (hallowed : s.Allowed op)
    (hok : ∀ bytes, op = .reserve bytes → s.ReserveOk bytes) :
    ∃ s', s.step fresh op = .ok s' ∧ s.Good op s' ∧ s'.Sound := by
  cases op with
  | reserve bytes =>
    obtain ⟨s', hs', hsound, -, hkept, hroom, hsame⟩ :=
      h.reserve fresh (hok bytes rfl)
    refine ⟨s', hs', ⟨fun slice hslice _ => hkept slice hslice, ?_, ?_⟩, hsound⟩
    · intro n hn
      cases hn
      exact ⟨hroom, hsame⟩
    · intro n hn
      cases hn
  | write bytes =>
    obtain ⟨s', hs', hsound, hkept⟩ := h.write hallowed.2
    exact ⟨s', hs', ⟨fun slice hslice _ => hkept slice hslice, nofun, nofun⟩, hsound⟩
  | markUsed bytecount =>
    obtain ⟨hs', hsound⟩ := h.markUsed hallowed.2
    exact ⟨_, hs', ⟨fun _ _ _ => rfl, nofun, nofun⟩, hsound⟩
  | commit usedBytes =>
    obtain ⟨s', hs', hsound, hmemory⟩ := h.commit hallowed.2
    refine ⟨s', hs', ⟨fun slice _ _ => ?_, nofun, nofun⟩, hsound⟩
    rw [content, content, arrayOf, arrayOf, hmemory]
  | createBufferSlice start stop =>
    obtain ⟨hs', hsound⟩ := h.createBufferSlice start stop hallowed.1 hallowed.2.1 hallowed.2.2
    exact ⟨_, hs', ⟨fun _ _ _ => rfl, nofun, nofun⟩, hsound⟩
  | forget rc =>
    obtain ⟨hs', hsound⟩ := h.forget hallowed.2
    exact ⟨_, hs', ⟨fun _ _ _ => rfl, nofun, nofun⟩, hsound⟩
  | clearReserve bytes =>
    obtain ⟨s', hs', hsound, -, hkept, hroom⟩ := h.clearReserve fresh hallowed
    refine ⟨s', hs', ⟨fun slice hslice _ => hkept slice hslice, nofun, ?_⟩, hsound⟩
    intro n hn
    cases hn
    exact hroom
  | letGo k =>
    obtain ⟨hsound, hkept⟩ := h.letGo k
    exact ⟨_, rfl, ⟨fun slice _ hslice => hkept slice hslice, nofun, nofun⟩, hsound⟩

theorem Sound.goes_iff (h : s.Sound) (ops : List Op) :
    s.Goes fresh ops ↔ s.Meets fresh ops := by
  induction ops generalizing s with
  | nil => exact Iff.rfl
  | cons op ops ih =>
    refine forall_congr' fun hallowed => ?_
    constructor
    · rintro ⟨s', hs', -, hgoes⟩
      have hok : ∀ bytes, op = .reserve bytes → s.ReserveOk bytes := by
        rintro bytes rfl
        by_contra hno
        exact h.reserve_ne_ok hno s' hs'
      obtain ⟨s₁, hs₁, -, hsound⟩ := h.step fresh hallowed hok
      refine ⟨hok, fun s₂ hs₂ => ?_⟩
      cases hs₁.symm.trans hs'
      cases hs₁.symm.trans hs₂
      exact (ih hsound).mp hgoes
    · rintro ⟨hok, hmeets⟩
      obtain ⟨s', hs', hgood, hsound⟩ := h.step fresh hallowed hok
      exact ⟨s', hs', hgood, (ih hsound).mpr (hmeets s' hs')⟩

/-- A run of the pool goes through, makes the room that is asked for and keeps the bytes of every
`ConstBuffer` and the uncommitted ones, exactly when every `reserve` in it finds room, or has nothing
to copy or somebody who holds the array, and the new size is an `int`. -/
theorem pool_goes_iff_meets (fresh : ℕ → ℕ → UInt8) (default_size : ℕ) (h : default_size < 2 ^ 30)
    (ops : List Op) :
    (create fresh default_size).Goes fresh ops ↔ (create fresh default_size).Meets fresh ops :=
  (sound_create fresh h).goes_iff ops

/-- A message, a commit, and more room while half of the next message is there. -/
def heldOps : List Op :=
  [.reserve 4, .write [1, 2], .markUsed 1, .commit 1, .write [3], .markUsed 1, .reserve 8,
    .letGo 0, .reserve 3]

theorem goes_iff_meets_heldOps :
    (create (fun _ _ => 0) 4).Goes (fun _ _ => 0) heldOps ↔
      (create (fun _ _ => 0) 4).Meets (fun _ _ => 0) heldOps :=
  pool_goes_iff_meets (fun _ _ => 0) 4 (by decide) heldOps

/-- A byte that is not committed, and nobody who holds the array. -/
def carelessOps : List Op :=
  [.reserve 4, .write [1], .markUsed 1, .reserve 8]

theorem not_goes_carelessOps : ¬ (create (fun _ _ => 0) 4).Goes (fun _ _ => 0) carelessOps := by
  intro hgoes
  obtain ⟨s₁, hs₁, -, hgoes⟩ := hgoes (show 4 < 2 ^ 30 by decide)
  cases hs₁
  obtain ⟨s₂, hs₂, -, hgoes⟩ := hgoes ⟨show 1 < 2 ^ 30 by decide, show 1 ≤ 4 by decide⟩
  cases hs₂
  obtain ⟨s₃, hs₃, -, hgoes⟩ := hgoes ⟨show 1 < 2 ^ 30 by decide, show 1 ≤ 4 by decide⟩
  cases hs₃
  obtain ⟨s₄, hs₄, -⟩ := hgoes (show 8 < 2 ^ 30 by decide)
  cases hs₄

end SharedPool

end Streaming
