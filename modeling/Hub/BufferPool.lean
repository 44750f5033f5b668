/-
# The buffer pool

The part of `Streaming::BufferPool` that a message builder writes through
(`libs/utils/streaming/BufferPool.cpp`), and the read-only slice
`Streaming::ConstBuffer` that `commit` hands out.

Pointers into the pool are offsets from the start of `m_buffer`.  The order of
the pointers, which the source asserts after every move, is a field of the
structure.  A write past the end of `m_buffer` and a failed assertion are both
`none`.
-/
import Mathlib.Algebra.Order.Ring.Nat
import Mathlib.Data.List.Basic
import Mathlib.Tactic.Common

namespace Streaming

/-! ## Slices -/

/-- A slice of memory.  `ConstBuffer::size` is an `int`, so a slice is shorter
than `2 ^ 31` bytes. -/
structure ConstBuffer where
  bytes : List UInt8
  size_lt : bytes.length < 2 ^ 31
  deriving DecidableEq

/-- `mem` with `bytes` copied over it from offset `i` on. -/
def writeAt (mem : List UInt8) (i : ℕ) (bytes : List UInt8) : List UInt8 :=
  mem.take i ++ bytes ++ mem.drop (i + bytes.length)

/-- The bytes of `mem` from offset `i` up to offset `j`. -/
def slice (mem : List UInt8) (i j : ℕ) : List UInt8 :=
  (mem.take j).drop i

/-- A write inside `mem` keeps its size. -/
@[simp] theorem length_writeAt {mem bytes : List UInt8} {i : ℕ}
    (h : i + bytes.length ≤ mem.length) : (writeAt mem i bytes).length = mem.length := by
  simp only [writeAt, List.length_append, List.length_take, List.length_drop]
  omega

/-- The slice that ends right behind a write is the slice before it, followed by
the bytes written. -/
theorem slice_writeAt {mem bytes : List UInt8} {i j : ℕ} (hij : i ≤ j)
    (h : j + bytes.length ≤ mem.length) :
    slice (writeAt mem j bytes) i (j + bytes.length) = slice mem i j ++ bytes := by
  have hlen : (mem.take j ++ bytes).length = j + bytes.length := by
    rw [List.length_append, List.length_take]
    omega
  rw [slice, writeAt, ← hlen, List.take_left, List.drop_append_of_le_length]
  · rfl
  · rw [List.length_take]
    omega

/-! ## The pool -/

/-- `Streaming::BufferPool`, with its memory `m_buffer` of `m_size` bytes. -/
structure BufferPool where
  buffer : List UInt8
  readPointer : ℕ
  writePointer : ℕ
  read_le_write : readPointer ≤ writePointer
  write_le_size : writePointer ≤ buffer.length
  size_lt : buffer.length < 2 ^ 31

namespace BufferPool

/-- `BufferPool::BufferPool`: `default_size` bytes of new memory. -/
def create (default_size : ℕ) (h : default_size < 2 ^ 31) : BufferPool where
  buffer := List.replicate default_size 0
  readPointer := 0
  writePointer := 0
  read_le_write := Nat.le_refl 0
  write_le_size := Nat.zero_le _
  size_lt := by rwa [List.length_replicate]

/-- `BufferPool::capacity`: the space left for writing. -/
def capacity (pool : BufferPool) : ℕ := pool.buffer.length - pool.writePointer

/-- `BufferPool::size`: the bytes written and not yet committed. -/
def size (pool : BufferPool) : ℕ := pool.writePointer - pool.readPointer

/-- The contents of the bytes between `begin()` and `end()`. -/
def used (pool : BufferPool) : List UInt8 :=
  slice pool.buffer pool.readPointer pool.writePointer

/-- A write of `bytes` at offset `at_`. -/
def store (pool : BufferPool) (at_ : ℕ) (bytes : List UInt8) : Option BufferPool :=
  if h : at_ + bytes.length ≤ pool.buffer.length then
    some { pool with
      buffer := writeAt pool.buffer at_ bytes
      write_le_size := by rw [length_writeAt h]; exact pool.write_le_size
      size_lt := by rw [length_writeAt h]; exact pool.size_lt }
  else none

/-- `BufferPool::markUsed`. -/
def markUsed (pool : BufferPool) (bytecount : ℕ) : Option BufferPool :=
  if h : pool.writePointer + bytecount ≤ pool.buffer.length then
    some { pool with
      writePointer := pool.writePointer + bytecount
      read_le_write := Nat.le_trans pool.read_le_write (Nat.le_add_right _ _)
      write_le_size := h }
  else none

/-- `BufferPool::commit` with no extra bytes. -/
def commit (pool : BufferPool) : ConstBuffer × BufferPool :=
  (⟨pool.used, by
      have h1 := pool.write_le_size
      have h2 := pool.size_lt
      rw [used, slice, List.length_drop, List.length_take]
      omega⟩,
   { pool with readPointer := pool.writePointer, read_le_write := Nat.le_refl _ })

/-- Writing `bytes` at `data()` and marking them used. -/
def put (pool : BufferPool) (bytes : List UInt8) : Option BufferPool := do
  let pool ← pool.store pool.writePointer bytes
  pool.markUsed bytes.length

@[simp] theorem bytes_commit (pool : BufferPool) : pool.commit.1.bytes = pool.used := rfl

@[simp] theorem length_used (pool : BufferPool) : pool.used.length = pool.size := by
  have h := pool.write_le_size
  rw [used, slice, size, List.length_drop, List.length_take]
  omega

/-- A write inside the memory leaves the pointers where they are. -/
theorem store_spec (pool : BufferPool) (at_ : ℕ) (bytes : List UInt8)
    (h : at_ + bytes.length ≤ pool.buffer.length) :
    ∃ pool', pool.store at_ bytes = some pool' ∧
      pool'.buffer = writeAt pool.buffer at_ bytes ∧
      pool'.readPointer = pool.readPointer ∧ pool'.writePointer = pool.writePointer :=
  ⟨_, dif_pos h, rfl, rfl, rfl⟩

/-- `markUsed` moves the write pointer and nothing else. -/
theorem markUsed_spec (pool : BufferPool) (n : ℕ)
    (h : pool.writePointer + n ≤ pool.buffer.length) :
    ∃ pool', pool.markUsed n = some pool' ∧ pool'.buffer = pool.buffer ∧
      pool'.readPointer = pool.readPointer ∧ pool'.writePointer = pool.writePointer + n :=
  ⟨_, dif_pos h, rfl, rfl, rfl⟩

/-- With room for them, `put` appends its bytes to the used part and takes their
number off the capacity. -/
theorem put_spec (pool : BufferPool) (bytes : List UInt8) (h : bytes.length ≤ pool.capacity) :
    ∃ pool', pool.put bytes = some pool' ∧ pool'.used = pool.used ++ bytes ∧
      pool'.capacity + bytes.length = pool.capacity := by
  have hw := pool.write_le_size
  rw [capacity] at h
  have hfit : pool.writePointer + bytes.length ≤ pool.buffer.length := by omega
  have hlen := length_writeAt hfit
  obtain ⟨mid, hmid, hbuf, hr, hwr⟩ := pool.store_spec pool.writePointer bytes hfit
  obtain ⟨pool', hput, hbuf', hr', hwr'⟩ :=
    mid.markUsed_spec bytes.length (by rw [hbuf, hlen, hwr]; exact hfit)
  refine ⟨pool', ?_, ?_, ?_⟩
  · rw [put, hmid]
    exact hput
  · rw [used, used, hbuf', hbuf, hr', hr, hwr', hwr]
    exact slice_writeAt pool.read_le_write hfit
  · rw [capacity, capacity, hbuf', hbuf, hlen, hwr', hwr]
    omega

end BufferPool

end Streaming
