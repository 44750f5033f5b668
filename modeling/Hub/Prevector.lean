/-
# Small vectors

`prevector` (`libs/utils/prevector.h`): up to `N` elements lie in the object itself, more of them on
the heap, and which of the two it is shows in the size field, that is `N + 1` larger for the second.
A third kind points at the bytes of a `ConstBuffer`, and has `owned` unset.

Only the destructor looks at `owned`.  Here every `free`, `realloc` and write to indirect storage does
too, and stops at storage that is not owned (`Fault.notOwned`): this is where the code goes on with
memory that is not its own.

An element is passed as a `const T&`.  It can be one of the vector itself, and then it is read after
the elements have moved, or after the storage has changed (`Ref.read`).
-/
import Mathlib.Algebra.Order.Group.Nat
import Mathlib.Data.List.Basic
import Mathlib.Tactic.Common

namespace Prevector

/-! ## The representation -/

/-- Storage that is not owned is freed, reallocated or written; storage that has been freed is used;
an access outside of the storage; the wrong member of the union; an element that was never
constructed. -/
inductive Fault where
  | notOwned
  | useAfterFree
  | outOfBounds
  | misread
  | uninitialized
  deriving DecidableEq

/-- Memory for elements; a cell is `none` until an element is constructed in it. -/
abbrev Cells (T : Type) := List (Option T)

/-- What was allocated, and the bytes of `ConstBuffer`s; `none` after `free`. -/
abbrev Heap (T : Type) := List (Option (Cells T))

/-- `_union`. -/
inductive Storage (T : Type) where
  | direct (items : Cells T)
  | indirect (capacity : ℕ) (ptr : ℕ) (owned : Bool)

/-- `prevector`; `rawSize` is `_size`. -/
structure Vec (T : Type) where
  rawSize : ℕ
  storage : Storage T

/-- A `const T&`: an element that lies elsewhere, or the one at a position of the vector itself. -/
inductive Ref (T : Type) where
  | value (x : T)
  | own (i : ℕ)

/-- The conversion to `uint32_t`. -/
def u32 (n : ℕ) : ℕ := n % 2 ^ 32

variable {T : Type} (N : ℕ)

/-- What a reference reads after a gap of `count` cells was opened at `pos`, in the same storage. -/
def Ref.shifted (xs : List T) (pos count : ℕ) : Ref T → Option T
  | .value x => some x
  | .own i => if i < pos + count then xs[i]? else xs[i - count]?

namespace Vec

/-- `is_direct`. -/
def IsDirect (v : Vec T) : Prop := v.rawSize ≤ N

instance (v : Vec T) : Decidable (v.IsDirect N) := Nat.decLe _ _

/-- `size`. -/
def size (v : Vec T) : ℕ := if v.IsDirect N then v.rawSize else v.rawSize - N - 1

/-- `capacity`. -/
def capacity (v : Vec T) : ℕ :=
  if v.IsDirect N then N
  else
    match v.storage with
    | .direct _ => 0
    | .indirect capacity _ _ => capacity

/-- The storage behind `item_ptr`. -/
def cells (h : Heap T) (v : Vec T) : Except Fault (Cells T) :=
  if v.IsDirect N then
    match v.storage with
    | .direct items => .ok items
    | .indirect _ _ _ => .error .misread
  else
    match v.storage with
    | .direct _ => .error .misread
    | .indirect _ ptr _ =>
        match h[ptr]?.join with
        | some items => .ok items
        | none => .error .useAfterFree

/-- The storage behind `item_ptr` is written. -/
def setCells (h : Heap T) (v : Vec T) (items : Cells T) : Except Fault (Heap T × Vec T) :=
  if v.IsDirect N then
    match v.storage with
    | .direct _ => .ok (h, { v with storage := .direct items })
    | .indirect _ _ _ => .error .misread
  else
    match v.storage with
    | .direct _ => .error .misread
    | .indirect _ ptr owned =>
        if owned then .ok (h.set ptr (some items), v) else .error .notOwned

/-- `new(item_ptr(pos)) T(value)`; a position is an `int32_t`. -/
def place (h : Heap T) (v : Vec T) (pos : ℕ) (value : T) : Except Fault (Heap T × Vec T) := do
  let items ← v.cells N h
  if pos < items.length ∧ pos < 2 ^ 31 then v.setCells N h (items.set pos (some value))
  else .error .outOfBounds

/-- `memmove` of `len` elements. -/
def memmove (h : Heap T) (v : Vec T) (dst src len : ℕ) : Except Fault (Heap T × Vec T) :=
  if len = 0 then .ok (h, v)
  else do
    let items ← v.cells N h
    if src + len ≤ items.length ∧ dst + len ≤ items.length ∧ src < 2 ^ 31 ∧ dst < 2 ^ 31 then
      v.setCells N h (items.take dst ++ ((items.drop src).take len ++ items.drop (dst + len)))
    else .error .outOfBounds

/-! ## The operations -/

/-- `change_capacity`. -/
def changeCapacity (h : Heap T) (v : Vec T) (new_capacity : ℕ) : Except Fault (Heap T × Vec T) :=
  if new_capacity ≤ N then
    if v.IsDirect N then .ok (h, v)
    else do
      let items ← v.cells N h
      if N < v.size N then .error .outOfBounds
      else
        match v.storage with
        | .direct _ => .error .misread
        | .indirect _ ptr owned =>
            if owned then
              .ok (h.set ptr none, ⟨v.rawSize - (N + 1),
                .direct (items.take (v.size N) ++ List.replicate (N - v.size N) none)⟩)
            else .error .notOwned
  else if v.IsDirect N then do
    let items ← v.cells N h
    .ok (h ++ [some (items.take (v.size N) ++ List.replicate (new_capacity - v.size N) none)],
      ⟨u32 (v.rawSize + (N + 1)), .indirect new_capacity h.length true⟩)
  else do
    let items ← v.cells N h
    match v.storage with
    | .direct _ => .error .misread
    | .indirect _ ptr owned =>
        if owned then
          .ok (h.set ptr none ++
              [some (items.take new_capacity ++ List.replicate (new_capacity - items.length) none)],
            { v with storage := .indirect new_capacity h.length true })
        else .error .notOwned

/-- `if (capacity() < n) change_capacity(new_capacity)`. -/
def ensure (h : Heap T) (v : Vec T) (n new_capacity : ℕ) : Except Fault (Heap T × Vec T) :=
  if v.capacity N < n then v.changeCapacity N h new_capacity else .ok (h, v)

/-- The loop that constructs elements at the end. -/
def fill (h : Heap T) (v : Vec T) : List T → Except Fault (Heap T × Vec T)
  | [] => .ok (h, v)
  | value :: values => do
      let v := { v with rawSize := u32 (v.rawSize + 1) }
      let r ← v.place N h (v.size N - 1) value
      fill r.1 r.2 values

/-- `erase(first, last)`. -/
def erase (h : Heap T) (v : Vec T) (first last : ℕ) : Except Fault (Heap T × Vec T) :=
  Vec.memmove N h { v with rawSize := v.rawSize - (last - first) } first last (v.size N - last)

/-- `if (size() > new_size) erase(item_ptr(new_size), end())`. -/
def shrink (h : Heap T) (v : Vec T) (new_size : ℕ) : Except Fault (Heap T × Vec T) :=
  if new_size < v.size N then v.erase N h new_size (v.size N) else .ok (h, v)

/-- `resize`. -/
def resize [Inhabited T] (h : Heap T) (v : Vec T) (new_size : ℕ) : Except Fault (Heap T × Vec T) := do
  let r ← v.shrink N h new_size
  let r ← r.2.ensure N r.1 new_size new_size
  r.2.fill N r.1 (List.replicate (new_size - r.2.size N) default)

/-- `assign`; the elements are read one after the other. -/
def assign [Inhabited T] (h : Heap T) (v : Vec T) (values : List T) :
    Except Fault (Heap T × Vec T) := do
  let r ← v.resize N h 0
  let r ← r.2.ensure N r.1 values.length values.length
  r.2.fill N r.1 values

/-- Elements that are constructed from position `pos` on. -/
def placeAll (h : Heap T) (v : Vec T) (pos : ℕ) : List T → Except Fault (Heap T × Vec T)
  | [] => .ok (h, v)
  | value :: values => do
      let r ← v.place N h pos value
      placeAll r.1 r.2 (pos + 1) values

/-- The element in a cell. -/
def cell (items : Cells T) (i : ℕ) : Except Fault T :=
  match items[i]? with
  | none => .error .outOfBounds
  | some none => .error .uninitialized
  | some (some x) => .ok x

/-- What a reference reads now that was made while the vector was `v₀`: it is an address. -/
def read (h : Heap T) (v₀ v : Vec T) : Ref T → Except Fault T
  | .value x => .ok x
  | .own i =>
      match v₀.storage with
      | .direct _ =>
          match v.storage with
          | .direct items => cell items i
          | .indirect _ _ _ => .error .misread
      | .indirect _ ptr _ =>
          match h[ptr]?.join with
          | some items => cell items i
          | none => .error .useAfterFree

/-- The beginning of each `insert`: the elements from `pos` on move up. -/
def openGap (h : Heap T) (v : Vec T) (pos count : ℕ) : Except Fault (Heap T × Vec T) := do
  let new_size := u32 (v.size N + count)
  let r ← v.ensure N h new_size (u32 (new_size + new_size / 2))
  let r ← r.2.memmove N r.1 (pos + count) pos (r.2.size N - pos)
  .ok (r.1, { r.2 with rawSize := u32 (r.2.rawSize + count) })

/-- `insert` of a range. -/
def insertRange (h : Heap T) (v : Vec T) (pos : ℕ) (values : List T) :
    Except Fault (Heap T × Vec T) := do
  let r ← v.openGap N h pos values.length
  r.2.placeAll N r.1 pos values

/-- The loop of `insert` that constructs copies of one element, each read anew. -/
def placeCopies (v₀ : Vec T) (value : Ref T) (h : Heap T) (v : Vec T) (pos : ℕ) :
    ℕ → Except Fault (Heap T × Vec T)
  | 0 => .ok (h, v)
  | count + 1 => do
      let x ← read h v₀ v value
      let r ← v.place N h pos x
      placeCopies v₀ value r.1 r.2 (pos + 1) count

/-- `insert` of copies. -/
def insertCount (h : Heap T) (v : Vec T) (pos count : ℕ) (value : Ref T) :
    Except Fault (Heap T × Vec T) := do
  let r ← v.openGap N h pos count
  placeCopies N v value r.1 r.2 pos count

/-- `insert` of one element. -/
def insert (h : Heap T) (v : Vec T) (pos : ℕ) (value : Ref T) : Except Fault (Heap T × Vec T) :=
  v.insertCount N h pos 1 value

/-- `push_back`. -/
def pushBack (h : Heap T) (v : Vec T) (value : Ref T) : Except Fault (Heap T × Vec T) := do
  let new_size := u32 (v.size N + 1)
  let r ← v.ensure N h new_size (u32 (new_size + new_size / 2))
  let x ← read r.1 v r.2 value
  let r ← r.2.place N r.1 (r.2.size N) x
  .ok (r.1, { r.2 with rawSize := u32 (r.2.rawSize + 1) })

/-- The elements that are constructed, from `begin()` to `end()`. -/
def contents (h : Heap T) (v : Vec T) : Except Fault (List T) := do
  let items ← v.cells N h
  if items.length < v.size N then .error .outOfBounds
  else
    match (items.take (v.size N)).mapM id with
    | some values => .ok values
    | none => .error .uninitialized

/-- The object before a constructor has run. -/
def raw : Vec T := ⟨0, .direct (List.replicate N none)⟩

/-- The constructors from values, and from a size and a value. -/
def construct (h : Heap T) (values : List T) : Except Fault (Heap T × Vec T) := do
  let r ← (raw N).changeCapacity N h values.length
  r.2.fill N r.1 values

/-- The copy constructor. -/
def copy (h : Heap T) (other : Vec T) : Except Fault (Heap T × Vec T) := do
  let r ← (raw N).changeCapacity N h (other.size N)
  let values ← other.contents N r.1
  r.2.fill N r.1 values

/-- The constructor from a `ConstBuffer` with `size` bytes. -/
def ofBuffer (size ptr : ℕ) : Vec T := ⟨u32 (size + N + 1), .indirect size ptr false⟩

/-- `operator=`, from another object. -/
def assignFrom [Inhabited T] (h : Heap T) (v other : Vec T) : Except Fault (Heap T × Vec T) := do
  let r ← v.resize N h 0
  let r ← r.2.changeCapacity N r.1 (other.size N)
  let values ← other.contents N r.1
  r.2.fill N r.1 values

/-- The destructor. -/
def destroy [Inhabited T] (h : Heap T) (v : Vec T) : Except Fault (Heap T) := do
  let r ← v.resize N h 0
  if r.2.IsDirect N then .ok r.1
  else
    match r.2.storage with
    | .direct _ => .error .misread
    | .indirect _ ptr owned => if owned then .ok (r.1.set ptr none) else .ok r.1

/-! ## What a vector holds -/

/-- What is known of indirect storage: the capacity, the block, and whether it is owned. -/
def shape (v : Vec T) : Option (ℕ × ℕ × Bool) :=
  match v.storage with
  | .direct _ => none
  | .indirect capacity ptr owned => some (capacity, ptr, owned)

def Owns (v : Vec T) (ptr : ℕ) : Prop := ∃ capacity, v.shape = some (capacity, ptr, true)

def Borrows (v : Vec T) (ptr : ℕ) : Prop := ∃ capacity, v.shape = some (capacity, ptr, false)

/-- The storage may be written, freed and reallocated. -/
def Mine (v : Vec T) : Prop := ∀ ptr, ¬ v.Borrows ptr

/-- `items` are the cells of the storage. -/
def Stored (h : Heap T) (v : Vec T) (items : Cells T) : Prop :=
  match v.storage with
  | .direct items' => items' = items ∧ items.length = N
  | .indirect capacity ptr _ => h[ptr]? = some (some items) ∧ items.length = capacity

/-- The size field says `n`, and which kind of storage it is. -/
def Sized (v : Vec T) (n : ℕ) : Prop :=
  match v.shape with
  | none => v.rawSize = n ∧ n ≤ N
  | some _ => v.rawSize = n + (N + 1)

/-- The vector holds `values`, at the front of the cells `items`. -/
structure Holds (h : Heap T) (v : Vec T) (values : List T) (items : Cells T) : Prop where
  stored : v.Stored N h items
  sized : v.Sized N values.length
  le : values.length ≤ items.length
  take : items.take values.length = values.map some

/-- A step in place: only the owned storage is written. -/
structure Kept (h : Heap T) (v : Vec T) (h' : Heap T) (v' : Vec T) : Prop where
  shape : v'.shape = v.shape
  length : h'.length = h.length
  others : ∀ ptr, ¬ v.Owns ptr → h'[ptr]? = h[ptr]?

/-- Any step: other storage stays, and storage that is newly owned is new. -/
structure Frame (h : Heap T) (v : Vec T) (h' : Heap T) (v' : Vec T) : Prop where
  length : h.length ≤ h'.length
  others : ∀ ptr < h.length, ¬ v.Owns ptr → h'[ptr]? = h[ptr]?
  owns : ∀ ptr, v'.Owns ptr → v.Owns ptr ∨ h.length ≤ ptr
  borrows : ∀ ptr, v'.Borrows ptr → v.Borrows ptr

section

variable {N} {h h' h'' : Heap T} {v v' v'' w : Vec T} {items items' : Cells T} {n : ℕ}
  {values xs : List T}

theorem Kept.refl (h : Heap T) (v : Vec T) : Kept h v h v := ⟨rfl, rfl, fun _ _ => rfl⟩

theorem Kept.trans (h₁ : Kept h v h' v') (h₂ : Kept h' v' h'' v'') : Kept h v h'' v'' where
  shape := h₂.shape.trans h₁.shape
  length := h₂.length.trans h₁.length
  others := by
    intro ptr hptr
    have hptr' : ¬ v'.Owns ptr := by
      rw [Owns, h₁.shape]
      exact hptr
    exact (h₂.others ptr hptr').trans (h₁.others ptr hptr)

theorem Kept.frame (h₁ : Kept h v h' v') : Frame h v h' v' where
  length := h₁.length.ge
  others := fun ptr _ hptr => h₁.others ptr hptr
  owns := by
    rintro ptr ⟨capacity, hshape⟩
    exact .inl ⟨capacity, h₁.shape ▸ hshape⟩
  borrows := by
    rintro ptr ⟨capacity, hshape⟩
    exact ⟨capacity, h₁.shape ▸ hshape⟩

theorem Frame.trans (h₁ : Frame h v h' v') (h₂ : Frame h' v' h'' v'') : Frame h v h'' v'' where
  length := h₁.length.trans h₂.length
  others := by
    intro ptr hlt hptr
    have hptr' : ¬ v'.Owns ptr := by
      intro hown
      obtain hown | hge := h₁.owns ptr hown
      · exact hptr hown
      · exact absurd hlt (Nat.not_lt.mpr hge)
    exact (h₂.others ptr (hlt.trans_le h₁.length) hptr').trans (h₁.others ptr hlt hptr)
  owns := by
    intro ptr hown
    obtain hown | hge := h₂.owns ptr hown
    · exact h₁.owns ptr hown
    · exact .inr (h₁.length.trans hge)
  borrows := fun ptr hptr => h₁.borrows ptr (h₂.borrows ptr hptr)

theorem Frame.mine (h₁ : Frame h v h' v') (hmine : v.Mine) : v'.Mine :=
  fun ptr hptr => hmine ptr (h₁.borrows ptr hptr)

theorem Sized.congr (hsized : v.Sized N n) (v' : Vec T) (hshape : v'.shape = v.shape)
    (hraw : v'.rawSize = v.rawSize) : v'.Sized N n := by
  rw [Sized, hshape, hraw]
  exact hsized

/-- The size field tells the two kinds of storage apart. -/
theorem Sized.isDirect_iff (hsized : v.Sized N n) : v.IsDirect N ↔ v.shape = none := by
  rw [IsDirect]
  rw [Sized] at hsized
  cases hshape : v.shape with
  | none =>
    rw [hshape] at hsized
    exact iff_of_true (hsized.1.trans_le hsized.2) rfl
  | some s =>
    rw [hshape] at hsized
    refine iff_of_false ?_ nofun
    change v.rawSize = n + (N + 1) at hsized
    omega

theorem Sized.size (hsized : v.Sized N n) : v.size N = n := by
  have hdirect := hsized.isDirect_iff
  rw [Vec.size]
  rw [Sized] at hsized
  cases hshape : v.shape with
  | none =>
    rw [if_pos (hdirect.mpr hshape)]
    rw [hshape] at hsized
    exact hsized.1
  | some s =>
    rw [hshape] at hdirect hsized
    change v.rawSize = n + (N + 1) at hsized
    rw [if_neg (fun h => absurd (hdirect.mp h) nofun)]
    omega

theorem Stored.cells (hstored : v.Stored N h items) (hsized : v.Sized N n) :
    v.cells N h = .ok items := by
  have hdirect := hsized.isDirect_iff
  obtain ⟨rawSize, storage⟩ := v
  cases storage with
  | direct items₀ =>
    rw [Vec.cells, if_pos (hdirect.mpr rfl)]
    exact congrArg Except.ok hstored.1
  | indirect capacity ptr owned =>
    rw [Vec.cells, if_neg (fun h => absurd (hdirect.mp h) nofun)]
    dsimp only
    rw [hstored.1]
    rfl

theorem Stored.capacity (hstored : v.Stored N h items) (hsized : v.Sized N n) :
    v.capacity N = items.length := by
  have hdirect := hsized.isDirect_iff
  obtain ⟨rawSize, storage⟩ := v
  cases storage with
  | direct items₀ =>
    rw [Vec.capacity, if_pos (hdirect.mpr rfl)]
    exact hstored.2.symm
  | indirect capacity ptr owned =>
    rw [Vec.capacity, if_neg (fun h => absurd (hdirect.mp h) nofun)]
    exact hstored.2.symm

/-- Storage stays as long as its block does. -/
theorem Stored.frame (hstored : w.Stored N h items)
    (hsame : ∀ capacity ptr owned, w.shape = some (capacity, ptr, owned) → h'[ptr]? = h[ptr]?) :
    w.Stored N h' items := by
  obtain ⟨rawSize, storage⟩ := w
  cases storage with
  | direct items₀ => exact hstored
  | indirect capacity ptr owned => exact ⟨(hsame capacity ptr owned rfl).trans hstored.1, hstored.2⟩

/-- Owned storage is written. -/
theorem setCells_spec (items' : Cells T) (hstored : v.Stored N h items) (hsized : v.Sized N n)
    (hmine : v.Mine) (hlen : items'.length = items.length) :
    ∃ h' v', v.setCells N h items' = .ok (h', v') ∧ v'.Stored N h' items' ∧
      v'.rawSize = v.rawSize ∧ Kept h v h' v' := by
  have hdirect := hsized.isDirect_iff
  obtain ⟨rawSize, storage⟩ := v
  cases storage with
  | direct items₀ =>
    refine ⟨h, ⟨rawSize, .direct items'⟩, ?_, ?_, rfl, rfl, rfl, fun _ _ => rfl⟩
    · rw [setCells, if_pos (hdirect.mpr rfl)]
    · exact ⟨rfl, hlen.trans hstored.2⟩
  | indirect capacity ptr owned =>
    have howned : owned = true := by
      by_contra hno
      rw [Bool.not_eq_true] at hno
      exact hmine ptr ⟨capacity, by rw [hno]; rfl⟩
    have hlt : ptr < h.length := (List.getElem?_eq_some_iff.mp hstored.1).1
    refine ⟨h.set ptr (some items'), ⟨rawSize, .indirect capacity ptr owned⟩, ?_, ?_, rfl, rfl,
      List.length_set, ?_⟩
    · rw [setCells, if_neg (fun h => absurd (hdirect.mp h) nofun)]
      exact if_pos howned
    · exact ⟨List.getElem?_set_self hlt, hlen.trans hstored.2⟩
    · intro ptr' hptr'
      apply List.getElem?_set_ne
      rintro rfl
      exact hptr' ⟨capacity, by rw [howned]; rfl⟩

theorem setCells_borrowed (hsized : v.Sized N n) {ptr : ℕ} (hborrows : v.Borrows ptr) :
    v.setCells N h items' = .error .notOwned := by
  have hdirect := hsized.isDirect_iff
  obtain ⟨capacity, hshape⟩ := hborrows
  obtain ⟨rawSize, storage⟩ := v
  cases storage with
  | direct items₀ => cases hshape
  | indirect capacity' ptr' owned =>
    cases hshape
    rw [setCells, if_neg (fun h => absurd (hdirect.mp h) nofun)]
    rfl

theorem place_spec (pos : ℕ) (value : T) (hstored : v.Stored N h items) (hsized : v.Sized N n)
    (hmine : v.Mine) (hpos : pos < items.length) (hlt : pos < 2 ^ 31) :
    ∃ h' v', v.place N h pos value = .ok (h', v') ∧ v'.Stored N h' (items.set pos (some value)) ∧
      v'.rawSize = v.rawSize ∧ Kept h v h' v' := by
  obtain ⟨h', v', hset, hspec⟩ := setCells_spec (items.set pos (some value)) hstored hsized
    hmine List.length_set
  refine ⟨h', v', ?_, hspec⟩
  rw [place, hstored.cells hsized]
  change (if pos < items.length ∧ pos < 2 ^ 31 then _ else _) = _
  rw [if_pos ⟨hpos, hlt⟩, hset]

theorem place_borrowed (hstored : v.Stored N h items) (hsized : v.Sized N n) {ptr : ℕ}
    (hborrows : v.Borrows ptr) (pos : ℕ) (value : T) (r : Heap T × Vec T) :
    v.place N h pos value ≠ .ok r := by
  rw [place, hstored.cells hsized]
  change (if pos < items.length ∧ pos < 2 ^ 31 then _ else _) ≠ _
  split
  · rw [setCells_borrowed hsized hborrows]
    exact nofun
  · exact nofun

/-- What a `memmove` makes of the cells. -/
def moved (items : Cells T) (dst src len : ℕ) : Cells T :=
  items.take dst ++ ((items.drop src).take len ++ items.drop (dst + len))

theorem length_moved {dst src len : ℕ} (hsrc : src + len ≤ items.length)
    (hdst : dst + len ≤ items.length) : (moved items dst src len).length = items.length := by
  rw [moved, List.length_append, List.length_append, List.length_take, List.length_take,
    List.length_drop, List.length_drop]
  omega

/-- Nothing is moved, or owned storage is written. -/
theorem memmove_spec (dst src len : ℕ) (hstored : v.Stored N h items) (hsized : v.Sized N n)
    (hmine : len = 0 ∨ v.Mine) (hsrc : src + len ≤ items.length) (hdst : dst + len ≤ items.length)
    (hlt : len = 0 ∨ (src < 2 ^ 31 ∧ dst < 2 ^ 31)) :
    ∃ h' v', v.memmove N h dst src len = .ok (h', v') ∧ v'.Stored N h' (moved items dst src len) ∧
      v'.rawSize = v.rawSize ∧ Kept h v h' v' := by
  rw [memmove]
  by_cases hlen : len = 0
  · rw [if_pos hlen]
    refine ⟨h, v, rfl, ?_, rfl, Kept.refl h v⟩
    rw [moved, hlen, List.take_zero, List.nil_append, Nat.add_zero, List.take_append_drop]
    exact hstored
  · obtain ⟨h', v', hset, hspec⟩ := setCells_spec (moved items dst src len) hstored hsized
      (hmine.resolve_left hlen) (length_moved hsrc hdst)
    refine ⟨h', v', ?_, hspec⟩
    obtain ⟨hsrc', hdst'⟩ := hlt.resolve_left hlen
    rw [if_neg hlen, hstored.cells hsized]
    change (if src + len ≤ items.length ∧ dst + len ≤ items.length ∧ src < 2 ^ 31 ∧ dst < 2 ^ 31
      then _ else _) = _
    rw [if_pos ⟨hsrc, hdst, hsrc', hdst'⟩]
    exact hset

theorem memmove_borrowed (hstored : v.Stored N h items) (hsized : v.Sized N n) {ptr : ℕ}
    (hborrows : v.Borrows ptr) {dst src len : ℕ} (hlen : len ≠ 0) (r : Heap T × Vec T) :
    v.memmove N h dst src len ≠ .ok r := by
  rw [memmove, if_neg hlen, hstored.cells hsized]
  change (if src + len ≤ items.length ∧ dst + len ≤ items.length ∧ src < 2 ^ 31 ∧ dst < 2 ^ 31
    then _ else _) ≠ _
  split
  · rw [setCells_borrowed hsized hborrows]
    exact nofun
  · exact nofun

/-! ## Capacity -/

theorem u32_eq {n : ℕ} (hn : n < 2 ^ 32) : u32 n = n := Nat.mod_eq_of_lt hn

/-- A block that is new, or has been given up. -/
theorem getElem?_set_append {ptr : ℕ} (h : Heap T) (hptr : ptr < h.length) (block : ℕ)
    (cells : Cells T) (hne : ptr ≠ block) : (h.set block none ++ [some cells])[ptr]? = h[ptr]? := by
  rw [List.getElem?_append_left (by rw [List.length_set]; exact hptr), List.getElem?_set_ne hne.symm]

/-- The elements come along when the storage changes. -/
theorem changeCapacity_spec (hN : N < 2 ^ 31 - 1) (hholds : v.Holds N h values items)
    (hmine : v.Mine) (new_capacity : ℕ) (hle : values.length ≤ new_capacity) :
    ∃ h' v' items', v.changeCapacity N h new_capacity = .ok (h', v') ∧
      v'.Holds N h' values items' ∧ new_capacity ≤ items'.length ∧ Frame h v h' v' := by
  have hdirect := hholds.sized.isDirect_iff
  have hsize := hholds.sized.size
  have hcells := hholds.stored.cells hholds.sized
  have hlength : ∀ k, (items.take values.length ++ List.replicate k (none : Option T)).length =
      values.length + k := by
    intro k
    rw [List.length_append, List.length_take, List.length_replicate, Nat.min_eq_left hholds.le]
  have htake : ∀ k, (items.take values.length ++ List.replicate k none).take values.length =
      values.map some := by
    intro k
    rw [List.take_append_of_le_length, List.take_take, Nat.min_self, hholds.take]
    rw [List.length_take, Nat.min_eq_left hholds.le]
  rw [changeCapacity]
  by_cases hsmall : new_capacity ≤ N
  · rw [if_pos hsmall]
    by_cases hisDirect : v.IsDirect N
    · -- nothing to do
      rw [if_pos hisDirect]
      refine ⟨h, v, items, rfl, hholds, ?_, (Kept.refl h v).frame⟩
      have hcapacity := hholds.stored.capacity hholds.sized
      rw [capacity, if_pos hisDirect] at hcapacity
      omega
    · -- back into the object
      rw [if_neg hisDirect, hcells]
      change ∃ h' v' items', (if N < v.size N then _ else _) = _ ∧ _
      rw [hsize, if_neg (by omega)]
      obtain ⟨rawSize, storage⟩ := v
      cases storage with
      | direct items₀ => exact absurd (hdirect.mpr rfl) hisDirect
      | indirect capacity ptr owned =>
        have howned : owned = true := by
          by_contra hno
          rw [Bool.not_eq_true] at hno
          exact hmine ptr ⟨capacity, by rw [hno]; rfl⟩
        have hraw : rawSize = values.length + (N + 1) := hholds.sized
        dsimp only
        rw [if_pos howned]
        refine ⟨_, _, _, rfl, ⟨⟨rfl, ?_⟩, ⟨?_, ?_⟩, ?_, htake _⟩, ?_, ?_, ?_, ?_, ?_⟩
        · rw [hlength]
          omega
        · dsimp only
          omega
        · omega
        · rw [hlength]
          omega
        · rw [hlength]
          omega
        · exact List.length_set.ge
        · intro ptr' _ hptr'
          apply List.getElem?_set_ne
          rintro rfl
          exact hptr' ⟨capacity, by rw [howned]; rfl⟩
        · rintro ptr' ⟨_, hshape⟩
          cases hshape
        · rintro ptr' ⟨_, hshape⟩
          cases hshape
  · rw [if_neg hsmall]
    by_cases hisDirect : v.IsDirect N
    · -- onto the heap
      rw [if_pos hisDirect, hcells]
      change ∃ h' v' items', Except.ok (_, _) = _ ∧ _
      rw [hsize]
      obtain ⟨rawSize, storage⟩ := v
      cases storage with
      | indirect capacity ptr owned => exact absurd (hdirect.mp hisDirect) nofun
      | direct items₀ =>
        obtain ⟨hraw, hfits⟩ : rawSize = values.length ∧ values.length ≤ N := hholds.sized
        refine ⟨_, _, _, rfl, ⟨⟨List.getElem?_concat_length, ?_⟩, ?_, ?_, htake _⟩, ?_, ?_, ?_, ?_,
          ?_⟩
        · rw [hlength]
          omega
        · change u32 (rawSize + (N + 1)) = values.length + (N + 1)
          rw [u32_eq (by omega), hraw]
        · rw [hlength]
          omega
        · rw [hlength]
          omega
        · rw [List.length_append]
          exact Nat.le_add_right _ _
        · intro ptr hptr _
          exact List.getElem?_append_left hptr
        · rintro ptr ⟨_, hshape⟩
          cases hshape
          exact .inr le_rfl
        · rintro ptr ⟨_, hshape⟩
          cases hshape
    · -- another block
      rw [if_neg hisDirect, hcells]
      obtain ⟨rawSize, storage⟩ := v
      cases storage with
      | direct items₀ => exact absurd (hdirect.mpr rfl) hisDirect
      | indirect capacity ptr owned =>
        have howned : owned = true := by
          by_contra hno
          rw [Bool.not_eq_true] at hno
          exact hmine ptr ⟨capacity, by rw [hno]; rfl⟩
        have hlength' : (items.take new_capacity ++
            List.replicate (new_capacity - items.length) (none : Option T)).length = new_capacity := by
          rw [List.length_append, List.length_take, List.length_replicate]
          omega
        have hset : (h.set ptr none).length = h.length := List.length_set
        change ∃ h' v' items', (if owned = true then _ else _) = _ ∧ _
        rw [if_pos howned]
        refine ⟨_, _, _, rfl, ⟨⟨?_, hlength'⟩, hholds.sized, ?_, ?_⟩, ?_, ?_, ?_, ?_, ?_⟩
        · rw [← hset]
          exact List.getElem?_concat_length
        · rw [hlength']
          exact hle
        · have hmin : values.length ≤ (items.take new_capacity).length := by
            rw [List.length_take]
            have := hholds.le
            omega
          rw [List.take_append_of_le_length hmin, List.take_take, Nat.min_eq_left hle, hholds.take]
        · rw [hlength']
        · rw [List.length_append, hset]
          exact Nat.le_add_right _ _
        · intro ptr' hlt hptr'
          apply getElem?_set_append h hlt
          rintro rfl
          exact hptr' ⟨capacity, by rw [howned]; rfl⟩
        · rintro ptr' ⟨_, hshape⟩
          cases hshape
          exact .inr le_rfl
        · rintro ptr' ⟨_, hshape⟩
          cases hshape

/-- Borrowed storage is never left without a trace. -/
theorem changeCapacity_borrowed (hholds : v.Holds N h values items) {ptr : ℕ}
    (hborrows : v.Borrows ptr) (new_capacity : ℕ) (r : Heap T × Vec T) :
    v.changeCapacity N h new_capacity ≠ .ok r := by
  have hdirect := hholds.sized.isDirect_iff
  have hcells := hholds.stored.cells hholds.sized
  obtain ⟨capacity, hshape⟩ := hborrows
  have hisDirect : ¬ v.IsDirect N := by
    rw [hdirect, hshape]
    exact nofun
  obtain ⟨rawSize, storage⟩ := v
  cases storage with
  | direct items₀ => cases hshape
  | indirect capacity' ptr' owned =>
    cases hshape
    rw [changeCapacity, if_neg hisDirect, if_neg hisDirect, hcells]
    split
    · change (if _ then _ else _) ≠ _
      split
      · exact nofun
      · exact nofun
    · exact nofun

/-- Room for `n` elements; borrowed storage has to have it already. -/
theorem ensure_spec (hN : N < 2 ^ 31 - 1) (hholds : v.Holds N h values items) (n new_capacity : ℕ)
    (hmine : n ≤ items.length ∨ v.Mine) (hle : values.length ≤ new_capacity)
    (hn : n ≤ new_capacity) :
    ∃ h' v' items', v.ensure N h n new_capacity = .ok (h', v') ∧ v'.Holds N h' values items' ∧
      n ≤ items'.length ∧ Frame h v h' v' := by
  rw [ensure, hholds.stored.capacity hholds.sized]
  by_cases hroom : items.length < n
  · rw [if_pos hroom]
    obtain ⟨h', v', items', hchange, hholds', hroom', hframe⟩ :=
      changeCapacity_spec hN hholds (hmine.resolve_left (Nat.not_le.mpr hroom)) new_capacity hle
    exact ⟨h', v', items', hchange, hholds', hn.trans hroom', hframe⟩
  · rw [if_neg hroom]
    exact ⟨h, v, items, rfl, hholds, Nat.not_lt.mp hroom, (Kept.refl h v).frame⟩

theorem ensure_borrowed (hholds : v.Holds N h values items) {ptr : ℕ} (hborrows : v.Borrows ptr)
    {new_capacity : ℕ} {r : Heap T × Vec T} (hr : v.ensure N h n new_capacity = .ok r) :
    r = (h, v) ∧ n ≤ items.length := by
  rw [ensure, hholds.stored.capacity hholds.sized] at hr
  split at hr
  · exact absurd hr (changeCapacity_borrowed hholds hborrows new_capacity r)
  · next hroom =>
    cases hr
    exact ⟨rfl, Nat.not_lt.mp hroom⟩

/-! ## Elements -/

/-- The size field goes up. -/
theorem Holds.sized_add (hN : N < 2 ^ 31 - 1) (hholds : v.Holds N h values items) {k : ℕ}
    (hroom : values.length + k ≤ items.length) (hlt : values.length + k < 2 ^ 31) :
    Sized N { v with rawSize := u32 (v.rawSize + k) } (values.length + k) := by
  obtain ⟨rawSize, storage⟩ := v
  cases storage with
  | direct items₀ =>
    obtain ⟨hraw, hfits⟩ : rawSize = values.length ∧ values.length ≤ N := hholds.sized
    have hN' : items.length = N := hholds.stored.2
    refine ⟨?_, hN' ▸ hroom⟩
    dsimp only
    rw [u32_eq (by omega), hraw]
  | indirect capacity ptr owned =>
    have hraw : rawSize = values.length + (N + 1) := hholds.sized
    change u32 (rawSize + k) = values.length + k + (N + 1)
    rw [u32_eq (by omega), hraw]
    omega

/-- The size field goes down. -/
theorem Holds.sized_sub (hholds : v.Holds N h values items) {k : ℕ} (hk : k ≤ values.length) :
    Sized N { v with rawSize := v.rawSize - k } (values.length - k) := by
  obtain ⟨rawSize, storage⟩ := v
  cases storage with
  | direct items₀ =>
    obtain ⟨hraw, hfits⟩ : rawSize = values.length ∧ values.length ≤ N := hholds.sized
    refine ⟨?_, (Nat.sub_le _ _).trans hfits⟩
    dsimp only
    rw [hraw]
  | indirect capacity ptr owned =>
    have hraw : rawSize = values.length + (N + 1) := hholds.sized
    change rawSize - k = values.length - k + (N + 1)
    omega

/-- The cell behind the elements is written. -/
theorem take_set_length (hholds : v.Holds N h values items)
    (hroom : values.length + 1 ≤ items.length) (x : T) :
    (items.set values.length (some x)).take (values ++ [x]).length = (values ++ [x]).map some := by
  rw [List.set_eq_take_cons_drop _ hroom, hholds.take, List.length_append, List.map_append,
    List.take_append, List.length_map, List.take_of_length_le, Nat.add_sub_cancel_left]
  · rfl
  · rw [List.length_map]
    exact Nat.le_add_right _ _

theorem fill_spec (hN : N < 2 ^ 31 - 1) (hholds : v.Holds N h values items) (xs : List T)
    (hmine : xs = [] ∨ v.Mine) (hroom : values.length + xs.length ≤ items.length)
    (hlt : values.length + xs.length < 2 ^ 31) :
    ∃ h' v' items', v.fill N h xs = .ok (h', v') ∧ v'.Holds N h' (values ++ xs) items' ∧
      items'.length = items.length ∧ Kept h v h' v' := by
  induction xs generalizing h v values items with
  | nil =>
    rw [List.append_nil]
    exact ⟨h, v, items, rfl, hholds, rfl, Kept.refl h v⟩
  | cons x xs ih =>
    have hmine := hmine.resolve_left (List.cons_ne_nil x xs)
    rw [List.length_cons] at hroom hlt
    have hsized := hholds.sized_add hN (k := 1) (by omega) (by omega)
    have hpos : values.length < items.length := by omega
    obtain ⟨h₁, v₁, hplace, hstored, hraw, hkept⟩ := place_spec
      (v := { v with rawSize := u32 (v.rawSize + 1) }) values.length x hholds.stored hsized hmine hpos
      (by omega)
    have hholds₁ : v₁.Holds N h₁ (values ++ [x]) (items.set values.length (some x)) := by
      refine ⟨hstored, ?_, ?_, ?_⟩
      · rw [List.length_append]
        exact hsized.congr _ hkept.shape hraw
      · rw [List.length_append, List.length_set]
        exact hpos
      · exact take_set_length hholds hpos x
    have hmine₁ : v₁.Mine := hkept.frame.mine hmine
    obtain ⟨h₂, v₂, items₂, hfill, hholds₂, hlen₂, hkept₂⟩ := ih hholds₁ (.inr hmine₁)
      (by rw [List.length_append, List.length_set]; change values.length + 1 + xs.length ≤ _; omega)
      (by rw [List.length_append]; change values.length + 1 + xs.length < _; omega)
    refine ⟨h₂, v₂, items₂, ?_, ?_, hlen₂.trans List.length_set, ?_⟩
    · rw [fill]
      rw [hsized.size, Nat.add_sub_cancel, hplace]
      exact hfill
    · rw [List.append_assoc] at hholds₂
      exact hholds₂
    · exact Kept.trans ⟨hkept.shape, hkept.length, hkept.others⟩ hkept₂

theorem fill_borrowed (hholds : v.Holds N h values items) (hN : N < 2 ^ 31 - 1) {ptr : ℕ}
    (hborrows : v.Borrows ptr) (hxs : xs ≠ []) (hroom : values.length < items.length)
    (hlt : values.length + 1 < 2 ^ 31) (r : Heap T × Vec T) : v.fill N h xs ≠ .ok r := by
  cases xs with
  | nil => exact absurd rfl hxs
  | cons x xs =>
    have hsized := hholds.sized_add hN (k := 1) hroom hlt
    intro hr
    rw [fill] at hr
    cases hplace : place N h { v with rawSize := u32 (v.rawSize + 1) }
        (size N { v with rawSize := u32 (v.rawSize + 1) } - 1) x with
    | error e =>
      rw [hplace] at hr
      cases hr
    | ok r' =>
      exact place_borrowed (v := { v with rawSize := u32 (v.rawSize + 1) }) hholds.stored hsized
        hborrows _ x r' hplace

/-- Elements are taken out; at the end, nothing has to be moved. -/
theorem erase_spec (hholds : v.Holds N h values items) {first last : ℕ} (hle : first ≤ last)
    (hlast : last ≤ values.length) (hmine : last = values.length ∨ v.Mine)
    (hlt : values.length < 2 ^ 31) :
    ∃ h' v' items', v.erase N h first last = .ok (h', v') ∧
      v'.Holds N h' (values.take first ++ values.drop last) items' ∧
      items'.length = items.length ∧ Kept h v h' v' := by
  have hroom := hholds.le
  have hlength : (values.take first ++ values.drop last).length =
      values.length - (last - first) := by
    rw [List.length_append, List.length_take, List.length_drop]
    omega
  have hsized := hholds.sized_sub (k := last - first) (by omega)
  have hmine' : values.length - last = 0 ∨ Mine { v with rawSize := v.rawSize - (last - first) } :=
    hmine.imp_left fun h => by omega
  obtain ⟨h', v', hmove, hstored, hraw, hkept⟩ := memmove_spec first last
    (values.length - last) (v := { v with rawSize := v.rawSize - (last - first) }) hholds.stored hsized hmine'
    (by omega) (by omega) (by omega)
  refine ⟨h', v', _, ?_, ⟨hstored, ?_, ?_, ?_⟩, length_moved (by omega) (by omega), ?_⟩
  · rw [erase, hholds.sized.size]
    exact hmove
  · rw [hlength]
    exact hsized.congr _ hkept.shape hraw
  · rw [hlength, length_moved (by omega) (by omega)]
    omega
  · have hfront : items.take first = (values.take first).map some := by
      rw [List.map_take, ← hholds.take, List.take_take, Nat.min_eq_left (hle.trans hlast)]
    have hback : (items.drop last).take (values.length - last) = (values.drop last).map some := by
      rw [← List.drop_take, hholds.take, List.map_drop]
    rw [moved, hfront, hback, ← List.append_assoc, ← List.map_append,
      List.take_append_of_le_length, List.take_of_length_le]
    · rw [List.length_map]
    · rw [List.length_map]
  · exact ⟨hkept.shape, hkept.length, hkept.others⟩

theorem erase_borrowed (hholds : v.Holds N h values items) {ptr : ℕ} (hborrows : v.Borrows ptr)
    {first last : ℕ} (hle : first ≤ last) (hlast : last < values.length) (r : Heap T × Vec T) :
    v.erase N h first last ≠ .ok r := by
  have hsized := hholds.sized_sub (k := last - first) (by omega)
  rw [erase, hholds.sized.size]
  exact memmove_borrowed (v := { v with rawSize := v.rawSize - (last - first) }) hholds.stored hsized
    hborrows (by omega) r

/-- Elements that are written over others. -/
theorem placeAll_spec (pos : ℕ) (xs : List T) (hstored : v.Stored N h items) (hsized : v.Sized N n)
    (hmine : xs = [] ∨ v.Mine) (hroom : pos + xs.length ≤ items.length)
    (hlt : pos + xs.length ≤ 2 ^ 31) :
    ∃ h' v', v.placeAll N h pos xs = .ok (h', v') ∧
      v'.Stored N h' (items.take pos ++ (xs.map some ++ items.drop (pos + xs.length))) ∧
      v'.rawSize = v.rawSize ∧ Kept h v h' v' := by
  induction xs generalizing h v items pos with
  | nil =>
    refine ⟨h, v, rfl, ?_, rfl, Kept.refl h v⟩
    rw [List.map_nil, List.nil_append, List.length_nil, Nat.add_zero, List.take_append_drop]
    exact hstored
  | cons x xs ih =>
    have hmine := hmine.resolve_left (List.cons_ne_nil x xs)
    rw [List.length_cons] at hroom hlt
    have hpos : pos < items.length := by omega
    obtain ⟨h₁, v₁, hplace, hstored₁, hraw₁, hkept₁⟩ := place_spec pos x hstored hsized hmine
      hpos (by omega)
    obtain ⟨h₂, v₂, hall, hstored₂, hraw₂, hkept₂⟩ := ih (pos + 1) hstored₁
      (hsized.congr _ hkept₁.shape hraw₁) (.inr (hkept₁.frame.mine hmine))
      (by rw [List.length_set]; omega) (by omega)
    refine ⟨h₂, v₂, ?_, ?_, hraw₂.trans hraw₁, hkept₁.trans hkept₂⟩
    · rw [placeAll, hplace]
      exact hall
    · have htake : (items.set pos (some x)).take (pos + 1) = items.take pos ++ [some x] := by
        rw [List.take_add_one, List.take_set_of_le le_rfl, List.getElem?_set_self hpos]
        rfl
      have hdrop : (items.set pos (some x)).drop (pos + 1 + xs.length) =
          items.drop (pos + (xs.length + 1)) := by
        rw [List.drop_set_of_lt (by omega)]
        congr 1
        omega
      rw [htake, hdrop, List.append_assoc] at hstored₂
      exact hstored₂

/-! ## The operations -/

/-- What a vector shows. -/
theorem Holds.contents (hholds : v.Holds N h values items) : v.contents N h = .ok values := by
  have hmap : ∀ l : List T, (l.map some).mapM id = some l := by
    intro l
    induction l with
    | nil => rfl
    | cons x l ih =>
      rw [List.map_cons, List.mapM_cons, ih]
      rfl
  rw [Vec.contents, hholds.stored.cells hholds.sized]
  change (if items.length < v.size N then _ else _) = _
  rw [hholds.sized.size, if_neg (Nat.not_lt.mpr hholds.le), hholds.take, hmap]

theorem Holds.size_le_capacity (hholds : v.Holds N h values items) : v.size N ≤ v.capacity N := by
  rw [hholds.sized.size, hholds.stored.capacity hholds.sized]
  exact hholds.le

variable [Inhabited T]

/-- A smaller size is only a smaller size. -/
theorem truncate_spec (hholds : v.Holds N h values items)
    (hlt : values.length < 2 ^ 31) (hn : n ≤ values.length) :
    ∃ h' v' items', v.resize N h n = .ok (h', v') ∧ v'.Holds N h' (values.take n) items' ∧
      items'.length = items.length ∧ Kept h v h' v' := by
  have hshrink : ∃ h' v' items', v.shrink N h n = .ok (h', v') ∧
      v'.Holds N h' (values.take n) items' ∧ items'.length = items.length ∧ Kept h v h' v' := by
    rw [shrink, hholds.sized.size]
    by_cases hlt' : n < values.length
    · rw [if_pos hlt']
      obtain ⟨h', v', items', herase, hholds', hspec⟩ := erase_spec hholds hn le_rfl (.inl rfl) hlt
      rw [List.drop_length, List.append_nil] at hholds'
      exact ⟨h', v', items', herase, hholds', hspec⟩
    · rw [if_neg hlt', List.take_of_length_le (Nat.not_lt.mp hlt')]
      exact ⟨h, v, items, rfl, hholds, rfl, Kept.refl h v⟩
  obtain ⟨h', v', items', hshrink, hholds', hlen, hkept⟩ := hshrink
  have hsize : (values.take n).length = n := by
    rw [List.length_take, Nat.min_eq_left hn]
  refine ⟨h', v', items', ?_, hholds', hlen, hkept⟩
  rw [resize, hshrink]
  change v'.ensure N h' n n >>= _ = _
  rw [ensure, hholds'.stored.capacity hholds'.sized, if_neg (by have := hholds.le; omega)]
  change v'.fill N h' _ = _
  rw [hholds'.sized.size, hsize, Nat.sub_self]
  rfl

theorem resize_spec (hN : N < 2 ^ 31 - 1) (hholds : v.Holds N h values items)
    (hlt : values.length < 2 ^ 31) (hn : n < 2 ^ 31) (hmine : n ≤ values.length ∨ v.Mine) :
    ∃ h' v' items', v.resize N h n = .ok (h', v') ∧
      v'.Holds N h' (values.take n ++ List.replicate (n - values.length) default) items' ∧
      Frame h v h' v' := by
  by_cases hle : n ≤ values.length
  · obtain ⟨h', v', items', hresize, hholds', -, hkept⟩ := truncate_spec hholds hlt hle
    rw [Nat.sub_eq_zero_of_le hle, List.replicate_zero, List.append_nil]
    exact ⟨h', v', items', hresize, hholds', hkept.frame⟩
  · have hmine := hmine.resolve_left hle
    have hle := Nat.le_of_not_le hle
    obtain ⟨h₁, v₁, items₁, hensure, hholds₁, hroom, hframe₁⟩ := ensure_spec hN
      hholds n n (.inr hmine) hle le_rfl
    obtain ⟨h₂, v₂, items₂, hfill, hholds₂, -, hkept₂⟩ := fill_spec hN hholds₁
      (List.replicate (n - values.length) default) (.inr (hframe₁.mine hmine))
      (by rw [List.length_replicate]; omega) (by rw [List.length_replicate]; omega)
    refine ⟨h₂, v₂, items₂, ?_, ?_, hframe₁.trans hkept₂.frame⟩
    · rw [resize, shrink, hholds.sized.size, if_neg (Nat.not_lt.mpr hle)]
      change v.ensure N h n n >>= _ = _
      rw [hensure]
      change v₁.fill N h₁ _ = _
      rw [hholds₁.sized.size]
      exact hfill
    · rw [List.take_of_length_le hle]
      exact hholds₂

/-- Borrowed storage does not grow. -/
theorem le_of_resize (hN : N < 2 ^ 31 - 1) (hholds : v.Holds N h values items) {ptr : ℕ}
    (hborrows : v.Borrows ptr) (hn : n < 2 ^ 31) {r : Heap T × Vec T}
    (hr : v.resize N h n = .ok r) : n ≤ values.length := by
  by_contra hlt
  have hlt := Nat.not_le.mp hlt
  rw [resize, shrink, hholds.sized.size, if_neg (Nat.not_lt.mpr hlt.le)] at hr
  change v.ensure N h n n >>= _ = _ at hr
  cases hensure : v.ensure N h n n with
  | error e =>
    rw [hensure] at hr
    cases hr
  | ok r₁ =>
    obtain ⟨rfl, hroom⟩ := ensure_borrowed hholds hborrows hensure
    rw [hensure] at hr
    change v.fill N h _ = _ at hr
    rw [hholds.sized.size] at hr
    refine fill_borrowed hholds hN hborrows ?_ (by omega) (by omega) r hr
    rw [Ne, List.replicate_eq_nil_iff]
    omega

theorem assign_spec (hN : N < 2 ^ 31 - 1) (hholds : v.Holds N h values items)
    (hlt : values.length < 2 ^ 31) (hxs : xs.length < 2 ^ 31) (hmine : xs = [] ∨ v.Mine) :
    ∃ h' v' items', v.assign N h xs = .ok (h', v') ∧ v'.Holds N h' xs items' ∧
      Frame h v h' v' := by
  obtain ⟨h₁, v₁, items₁, hresize, hholds₁, -, hkept₁⟩ := truncate_spec (n := 0) hholds hlt
    (Nat.zero_le _)
  rw [List.take_zero] at hholds₁
  have hmine₁ : xs = [] ∨ v₁.Mine := hmine.imp_right hkept₁.frame.mine
  have hroom₁ : xs.length ≤ items₁.length ∨ v₁.Mine := by
    obtain rfl | hmine₁ := hmine₁
    · exact .inl (Nat.zero_le _)
    · exact .inr hmine₁
  obtain ⟨h₂, v₂, items₂, hensure, hholds₂, hroom, hframe₂⟩ := ensure_spec hN hholds₁
    xs.length xs.length hroom₁ (Nat.zero_le _) le_rfl
  obtain ⟨h₃, v₃, items₃, hfill, hholds₃, -, hkept₃⟩ := fill_spec hN hholds₂ xs
    (hmine₁.imp_right hframe₂.mine) (by rw [List.length_nil]; omega) (by rw [List.length_nil]; omega)
  refine ⟨h₃, v₃, items₃, ?_, hholds₃, hkept₁.frame.trans (hframe₂.trans hkept₃.frame)⟩
  rw [assign, hresize]
  change v₁.ensure N h₁ _ _ >>= _ = _
  rw [hensure]
  exact hfill

theorem eq_nil_of_assign (hN : N < 2 ^ 31 - 1) (hholds : v.Holds N h values items)
    (hlt : values.length < 2 ^ 31) {ptr : ℕ} (hborrows : v.Borrows ptr) {r : Heap T × Vec T}
    (hr : v.assign N h xs = .ok r) : xs = [] := by
  by_contra hne
  obtain ⟨h₁, v₁, items₁, hresize, hholds₁, -, hkept₁⟩ := truncate_spec (n := 0) hholds hlt
    (Nat.zero_le _)
  rw [List.take_zero] at hholds₁
  have hborrows₁ : v₁.Borrows ptr := by
    rw [Borrows, hkept₁.shape]
    exact hborrows
  rw [assign, hresize] at hr
  change v₁.ensure N h₁ _ _ >>= _ = _ at hr
  cases hensure : v₁.ensure N h₁ xs.length xs.length with
  | error e =>
    rw [hensure] at hr
    cases hr
  | ok r₁ =>
    obtain ⟨rfl, hroom⟩ := ensure_borrowed hholds₁ hborrows₁ hensure
    rw [hensure] at hr
    have hpos := List.length_pos_iff.mpr hne
    exact fill_borrowed hholds₁ hN hborrows₁ hne (by rw [List.length_nil]; omega)
      (by rw [List.length_nil]; omega) r hr

omit [Inhabited T]

/-! ## References -/

/-- The reference is one into storage that the vector has left. -/
def Dangles (h : Heap T) (v₀ v : Vec T) : Prop :=
  match v₀.storage with
  | .direct _ => v.shape ≠ none
  | .indirect _ ptr _ => h[ptr]? = some none ∧ ¬ v.Owns ptr

/-- A reference into the storage that the vector still has reads a cell. -/
theorem read_own (hstored : v.Stored N h items) (hshape : v.shape = v'.shape) (i : ℕ) :
    read h v' v (.own i) = cell items i := by
  obtain ⟨rawSize, storage⟩ := v
  obtain ⟨rawSize', storage'⟩ := v'
  cases storage with
  | direct items₀ =>
    cases storage' with
    | direct items₁ => exact congrArg (cell · i) hstored.1
    | indirect capacity ptr owned => cases hshape
  | indirect capacity ptr owned =>
    cases storage' with
    | direct items₁ => cases hshape
    | indirect capacity' ptr' owned' =>
      cases hshape
      dsimp only [read]
      rw [hstored.1]
      rfl

theorem read_of_dangles {v₀ : Vec T} (hdangles : Dangles h v₀ v) (i : ℕ) (x : T) :
    read h v₀ v (.own i) ≠ .ok x := by
  obtain ⟨rawSize₀, storage₀⟩ := v₀
  cases storage₀ with
  | direct items₀ =>
    obtain ⟨rawSize, storage⟩ := v
    cases storage with
    | direct items => exact absurd rfl hdangles
    | indirect capacity ptr owned =>
      intro hread
      cases hread
  | indirect capacity ptr owned =>
    intro hread
    dsimp only [read] at hread
    rw [hdangles.1] at hread
    cases hread

/-- The storage that was left is not written anymore. -/
theorem Dangles.kept {v₀ : Vec T} (hdangles : Dangles h v₀ v) (hkept : Kept h v h' v') :
    Dangles h' v₀ v' := by
  obtain ⟨rawSize₀, storage₀⟩ := v₀
  cases storage₀ with
  | direct items₀ =>
    change v'.shape ≠ none
    rw [hkept.shape]
    exact hdangles
  | indirect capacity ptr owned =>
    obtain ⟨hfreed, hnot⟩ := hdangles
    refine ⟨(hkept.others ptr hnot).trans hfreed, ?_⟩
    rw [Owns, hkept.shape]
    exact hnot

/-- New storage leaves the references behind. -/
theorem dangles_of_ensure (hholds : v.Holds N h values items) (hmine : v.Mine) {new_capacity : ℕ}
    (hroom : items.length < n) (hn : n ≤ new_capacity) {r : Heap T × Vec T}
    (hr : v.ensure N h n new_capacity = .ok r) : Dangles r.1 v r.2 := by
  have hdirect := hholds.sized.isDirect_iff
  rw [ensure, hholds.stored.capacity hholds.sized, if_pos hroom, changeCapacity,
    hholds.stored.cells hholds.sized] at hr
  obtain ⟨rawSize, storage⟩ := v
  cases storage with
  | direct items₀ =>
    have hcapacity : items.length = N := hholds.stored.2
    rw [if_neg (by omega), if_pos (hdirect.mpr rfl)] at hr
    cases hr
    change some _ ≠ none
    exact Option.some_ne_none _
  | indirect capacity ptr owned =>
    obtain rfl : owned = true := by
      by_contra hno
      rw [Bool.not_eq_true] at hno
      exact hmine ptr ⟨capacity, by rw [hno]; rfl⟩
    have hlt : ptr < h.length := (List.getElem?_eq_some_iff.mp hholds.stored.1).1
    have hfreed : (h.set ptr none)[ptr]? = some none := List.getElem?_set_self hlt
    have hnot : ¬ Vec.IsDirect N (⟨rawSize, .indirect capacity ptr true⟩ : Vec T) :=
      fun h => absurd (hdirect.mp h) (Option.some_ne_none _)
    rw [if_neg hnot, if_neg hnot] at hr
    by_cases hsmall : new_capacity ≤ N
    · -- back into the object
      rw [if_pos hsmall] at hr
      change (if N < _ then _ else Except.ok _) = _ at hr
      split at hr
      · cases hr
      · cases hr
        refine ⟨hfreed, ?_⟩
        rintro ⟨_, hshape⟩
        cases hshape
    · rw [if_neg hsmall] at hr
      cases hr
      refine ⟨?_, ?_⟩
      · rw [List.getElem?_append_left (by rw [List.length_set]; exact hlt)]
        exact hfreed
      · rintro ⟨_, hshape⟩
        cases hshape
        exact Nat.lt_irrefl _ hlt

/-! ## Insertion -/

/-- Cells with a gap at `pos`. -/
structure Gap (items : Cells T) (values : List T) (pos count : ℕ) : Prop where
  le : values.length + count ≤ items.length
  front : items.take pos = (values.take pos).map some
  back : ∃ rest, items.drop (pos + count) = (values.drop pos).map some ++ rest

/-- Room for `n` elements, with what becomes of references. -/
theorem ensure_refs (hN : N < 2 ^ 31 - 1) (hholds : v.Holds N h values items) (n new_capacity : ℕ)
    (hmine : n ≤ items.length ∨ v.Mine) (hle : values.length ≤ new_capacity)
    (hn : n ≤ new_capacity) :
    ∃ h' v' items', v.ensure N h n new_capacity = .ok (h', v') ∧ v'.Holds N h' values items' ∧
      n ≤ items'.length ∧ Frame h v h' v' ∧
      (n ≤ items.length → v'.shape = v.shape ∧ items' = items) ∧
      (items.length < n → Dangles h' v v') := by
  by_cases hroom : n ≤ items.length
  · refine ⟨h, v, items, ?_, hholds, hroom, (Kept.refl h v).frame, fun _ => ⟨rfl, rfl⟩,
      fun hlt => absurd hlt (Nat.not_lt.mpr hroom)⟩
    rw [ensure, hholds.stored.capacity hholds.sized, if_neg (Nat.not_lt.mpr hroom)]
  · obtain ⟨h', v', items', hensure, hholds', hroom', hframe⟩ :=
      ensure_spec hN hholds n new_capacity hmine hle hn
    exact ⟨h', v', items', hensure, hholds', hroom', hframe, fun h => absurd h hroom,
      fun hlt => dangles_of_ensure hholds (hmine.resolve_left hroom) hlt hn hensure⟩

/-- Elements move up. -/
theorem openGap_spec (hN : N < 2 ^ 31 - 1) (hholds : v.Holds N h values items) {pos count : ℕ}
    (hpos : pos ≤ values.length) (hlt : values.length + count < 2 ^ 31)
    (hmine : (count = 0 ∧ pos = values.length) ∨ v.Mine) :
    ∃ h' v' items', v.openGap N h pos count = .ok (h', v') ∧ v'.Stored N h' items' ∧
      v'.Sized N (values.length + count) ∧ Gap items' values pos count ∧ Frame h v h' v' ∧
      (values.length + count ≤ items.length → v'.shape = v.shape ∧
        ∀ i < values.length, i < pos + count → items'[i]? = some values[i]?) ∧
      (items.length < values.length + count → Dangles h' v v') := by
  have hnew : u32 (v.size N + count) = values.length + count := by
    rw [hholds.sized.size, u32_eq (by omega)]
  have hgrown : u32 (values.length + count + (values.length + count) / 2) =
      values.length + count + (values.length + count) / 2 := u32_eq (by omega)
  have hroom₀ : values.length + count ≤ items.length ∨ v.Mine := by
    obtain ⟨rfl, -⟩ | hmine := hmine
    · exact .inl hholds.le
    · exact .inr hmine
  obtain ⟨h₁, v₁, items₁, hensure, hholds₁, hroom, hframe₁, hstay, hgone⟩ := ensure_refs hN hholds
    (values.length + count) (values.length + count + (values.length + count) / 2) hroom₀
    (by omega) (by omega)
  have hmine₁ : (count = 0 ∧ pos = values.length) ∨ v₁.Mine := hmine.imp_right hframe₁.mine
  obtain ⟨h₂, v₂, hmove, hstored₂, hraw₂, hkept₂⟩ := memmove_spec (pos + count) pos
    (values.length - pos) hholds₁.stored hholds₁.sized
    (hmine₁.imp_left fun h => by omega) (by omega) (by omega) (by omega)
  have hkept : Kept h₁ v₁ h₂ { v₂ with rawSize := u32 (v₂.rawSize + count) } :=
    ⟨hkept₂.shape, hkept₂.length, hkept₂.others⟩
  have hgap : (items₁.take (pos + count)).length = pos + count := by
    rw [List.length_take]
    omega
  refine ⟨h₂, { v₂ with rawSize := u32 (v₂.rawSize + count) }, _, ?_, hstored₂, ?_, ⟨?_, ?_, ?_⟩,
    hframe₁.trans hkept.frame, ?_, ?_⟩
  · rw [openGap]
    dsimp only
    rw [hnew, hgrown, hensure]
    change v₁.memmove N h₁ _ _ (v₁.size N - pos) >>= _ = _
    rw [hholds₁.sized.size, hmove]
    rfl
  · have hsized := hholds₁.sized_add hN hroom hlt
    refine hsized.congr { v₂ with rawSize := u32 (v₂.rawSize + count) } hkept₂.shape ?_
    dsimp only
    rw [hraw₂]
  · rw [length_moved (by omega) (by omega)]
    exact hroom
  · rw [moved, List.take_append_of_le_length, List.take_take, Nat.min_eq_left (Nat.le_add_right _ _),
      List.map_take, ← hholds₁.take, List.take_take, Nat.min_eq_left hpos]
    rw [List.length_take]
    omega
  · refine ⟨items₁.drop (pos + count + (values.length - pos)), ?_⟩
    rw [moved, List.drop_append_of_le_length hgap.ge, List.drop_of_length_le hgap.le,
      List.nil_append, ← List.drop_take, hholds₁.take, List.map_drop]
  · intro hfits
    obtain ⟨hshape, rfl⟩ := hstay hfits
    refine ⟨hkept.shape.trans hshape, fun i hi hlt => ?_⟩
    -- the cells in front of the gap's end are as they were
    have htake : (items₁.take values.length)[i]? = (values.map some)[i]? := by rw [hholds₁.take]
    rw [List.getElem?_take_of_lt hi, List.getElem?_map] at htake
    rw [moved, List.getElem?_append_left (by omega), List.getElem?_take_of_lt hlt, htake,
      List.getElem?_eq_getElem hi]
    rfl
  · exact fun hlt => (hgone hlt).kept hkept

/-- What a reference reads in the same storage. -/
theorem Gap.getElem?_eq {pos count : ℕ} (hgap : Gap items values pos count) {i : ℕ}
    (hi : i < values.length)
    (hfront : i < pos + count → items[i]? = some values[i]?) :
    items[i]? = some ((Ref.own i : Ref T).shifted values pos count) := by
  rw [Ref.shifted]
  split
  · next hlt => exact hfront hlt
  · next hge =>
    obtain ⟨rest, hback⟩ := hgap.back
    have hget : (items.drop (pos + count))[i - (pos + count)]? =
        ((values.drop pos).map some ++ rest)[i - (pos + count)]? := by rw [hback]
    rw [List.getElem?_drop, List.getElem?_append_left
      (by rw [List.length_map, List.length_drop]; omega), List.getElem?_map, List.getElem?_drop,
      show pos + count + (i - (pos + count)) = i by omega,
      show pos + (i - (pos + count)) = i - count by omega,
      List.getElem?_eq_getElem (by omega : i - count < values.length)] at hget
    rw [hget, List.getElem?_eq_getElem (by omega : i - count < values.length)]
    rfl

/-- The gap is filled. -/
theorem Gap.holds {pos : ℕ} (hgap : Gap items values pos xs.length) (hpos : pos ≤ values.length)
    (hstored : v.Stored N h (items.take pos ++ (xs.map some ++ items.drop (pos + xs.length))))
    (hsized : v.Sized N (values.length + xs.length)) :
    v.Holds N h (values.take pos ++ (xs ++ values.drop pos))
      (items.take pos ++ (xs.map some ++ items.drop (pos + xs.length))) := by
  have htotal : (values.take pos ++ (xs ++ values.drop pos)).length =
      values.length + xs.length := by
    rw [List.length_append, List.length_append, List.length_take, List.length_drop]
    omega
  obtain ⟨rest, hback⟩ := hgap.back
  have hcells : items.take pos ++ (xs.map some ++ items.drop (pos + xs.length)) =
      (values.take pos ++ (xs ++ values.drop pos)).map some ++ rest := by
    rw [hgap.front, hback, List.map_append, List.map_append, List.append_assoc, List.append_assoc]
  refine ⟨hstored, htotal.symm ▸ hsized, ?_, ?_⟩
  · refine le_of_eq_of_le (List.length_map some).symm ?_
    rw [hcells, List.length_append]
    exact Nat.le_add_right _ _
  · rw [hcells, List.take_append_of_le_length, List.take_of_length_le]
    · rw [List.length_map]
    · rw [List.length_map]

theorem insertRange_spec (hN : N < 2 ^ 31 - 1) (hholds : v.Holds N h values items) {pos : ℕ}
    (hpos : pos ≤ values.length) (hlt : values.length + xs.length < 2 ^ 31)
    (hmine : (xs = [] ∧ pos = values.length) ∨ v.Mine) :
    ∃ h' v' items', v.insertRange N h pos xs = .ok (h', v') ∧
      v'.Holds N h' (values.take pos ++ (xs ++ values.drop pos)) items' ∧ Frame h v h' v' := by
  obtain ⟨h₁, v₁, items₁, hopen, hstored₁, hsized₁, hgap, hframe₁, -, -⟩ :=
    openGap_spec hN hholds hpos hlt (hmine.imp_left fun h => ⟨congrArg List.length h.1, h.2⟩)
  have hle := hgap.le
  obtain ⟨h₂, v₂, hall, hstored₂, hraw₂, hkept₂⟩ := placeAll_spec pos xs hstored₁ hsized₁
    (hmine.imp (fun h => h.1) hframe₁.mine) (by omega) (by omega)
  refine ⟨h₂, v₂, _, ?_, hgap.holds hpos hstored₂ (hsized₁.congr _ hkept₂.shape hraw₂),
    hframe₁.trans hkept₂.frame⟩
  rw [insertRange, hopen]
  exact hall

/-- Copies that are read one by one are all the same: a reference reads what has been written where
it points to. -/
theorem placeCopies_eq {v₀ : Vec T} {value : Ref T} {x : T} (hstored : v.Stored N h items)
    (hsized : v.Sized N n) (hmine : v.Mine)
    (hvalue : value = .value x ∨ ∃ i, value = .own i ∧ v.shape = v₀.shape ∧
      items[i]? = some (some x)) {pos : ℕ} (count : ℕ) (hroom : pos + count ≤ items.length)
    (hlt : pos + count ≤ 2 ^ 31) :
    placeCopies N v₀ value h v pos count = v.placeAll N h pos (List.replicate count x) := by
  induction count generalizing h v items pos with
  | zero => rfl
  | succ count ih =>
    have hread : read h v₀ v value = .ok x := by
      obtain rfl | ⟨i, rfl, hshape, hcell⟩ := hvalue
      · rfl
      · rw [read_own hstored hshape, cell, hcell]
    obtain ⟨h', v', hplace, hstored', hraw', hkept'⟩ := place_spec pos x hstored hsized hmine
      (by omega) (by omega)
    have hvalue' : value = .value x ∨ ∃ i, value = .own i ∧ v'.shape = v₀.shape ∧
        (items.set pos (some x))[i]? = some (some x) := by
      refine hvalue.imp_right ?_
      rintro ⟨i, rfl, hshape, hcell⟩
      refine ⟨i, rfl, hkept'.shape.trans hshape, ?_⟩
      by_cases hi : pos = i
      · subst hi
        exact List.getElem?_set_self (by omega)
      · rw [List.getElem?_set_ne hi]
        exact hcell
    have hroom' : pos + 1 + count ≤ (items.set pos (some x)).length := by
      rw [List.length_set]
      omega
    rw [placeCopies, List.replicate_succ, placeAll, hread]
    change place N h v pos x >>= _ = _
    rw [hplace]
    exact ih hstored' (hsized.congr _ hkept'.shape hraw') (hkept'.frame.mine hmine) hvalue' hroom'
      (by omega)

/-- Copies of one element, read after the others have moved up; the storage has to stay where it is
for a reference into the vector. -/
theorem insertCount_spec (hN : N < 2 ^ 31 - 1) (hholds : v.Holds N h values items) {pos count : ℕ}
    (hpos : pos ≤ values.length) (hlt : values.length + count < 2 ^ 31)
    (hmine : (count = 0 ∧ pos = values.length) ∨ v.Mine) {value : Ref T} {x : T}
    (hvalue : count = 0 ∨ value = .value x ∨ ∃ i < values.length, value = .own i ∧
      values.length + count ≤ items.length ∧ value.shifted values pos count = some x) :
    ∃ h' v' items', v.insertCount N h pos count value = .ok (h', v') ∧
      v'.Holds N h' (values.take pos ++ (List.replicate count x ++ values.drop pos)) items' ∧
      Frame h v h' v' := by
  obtain ⟨h₁, v₁, items₁, hopen, hstored₁, hsized₁, hgap, hframe₁, hstay, -⟩ :=
    openGap_spec hN hholds hpos hlt hmine
  have hle := hgap.le
  have hcopies : placeCopies N v value h₁ v₁ pos count =
      v₁.placeAll N h₁ pos (List.replicate count x) := by
    obtain rfl | hvalue := hvalue
    · rfl
    · obtain ⟨rfl, -⟩ | hmine := hmine
      · rfl
      · refine placeCopies_eq hstored₁ hsized₁ (hframe₁.mine hmine) ?_ count (by omega) (by omega)
        refine hvalue.imp_right ?_
        rintro ⟨i, hi, rfl, hfits, hshifted⟩
        obtain ⟨hshape, hfront⟩ := hstay hfits
        refine ⟨i, rfl, hshape, ?_⟩
        rw [hgap.getElem?_eq hi (hfront i hi), hshifted]
  have hlength : (List.replicate count x).length = count := List.length_replicate
  obtain ⟨h₂, v₂, hall, hstored₂, hraw₂, hkept₂⟩ := placeAll_spec pos (List.replicate count x)
    hstored₁ hsized₁ (hmine.imp (fun h => by rw [h.1]; rfl) hframe₁.mine) (by omega) (by omega)
  rw [← hlength] at hgap hsized₁
  refine ⟨h₂, v₂, _, ?_, hgap.holds hpos hstored₂ (hsized₁.congr _ hkept₂.shape hraw₂),
    hframe₁.trans hkept₂.frame⟩
  rw [insertCount, hopen]
  exact hcopies.trans hall

/-- Where the storage changes, a reference into the vector cannot be read. -/
theorem not_insertCount_own (hN : N < 2 ^ 31 - 1) (hholds : v.Holds N h values items)
    {pos count : ℕ} (hpos : pos ≤ values.length) (hlt : values.length + count < 2 ^ 31)
    (hmine : v.Mine) (hgrows : items.length < values.length + count) (i : ℕ)
    (r : Heap T × Vec T) : v.insertCount N h pos count (.own i) ≠ .ok r := by
  obtain ⟨h₁, v₁, items₁, hopen, -, -, -, -, -, hgone⟩ :=
    openGap_spec hN hholds hpos hlt (.inr hmine)
  have hle := hholds.le
  obtain ⟨count, rfl⟩ : ∃ k, count = k + 1 := ⟨count - 1, by omega⟩
  intro hr
  rw [insertCount, hopen] at hr
  change read h₁ v v₁ (.own i) >>= _ = _ at hr
  cases hread : read h₁ v v₁ (.own i) with
  | error e =>
    rw [hread] at hr
    cases hr
  | ok x => exact read_of_dangles (hgone hgrows) i x hread

/-- In borrowed storage no gap is opened, other than an empty one at the end. -/
theorem openGap_borrowed (hholds : v.Holds N h values items) {pos count : ℕ}
    (hpos : pos ≤ values.length) (hlt : values.length + count < 2 ^ 31) {ptr : ℕ}
    (hborrows : v.Borrows ptr) {r : Heap T × Vec T} (hr : v.openGap N h pos count = .ok r) :
    pos = values.length ∧ values.length + count ≤ items.length ∧
      r = (h, { v with rawSize := u32 (v.rawSize + count) }) := by
  have hnew : u32 (v.size N + count) = values.length + count := by
    rw [hholds.sized.size, u32_eq (by omega)]
  rw [openGap] at hr
  dsimp only at hr
  rw [hnew] at hr
  cases hensure : v.ensure N h (values.length + count)
      (u32 (values.length + count + (values.length + count) / 2)) with
  | error e =>
    rw [hensure] at hr
    cases hr
  | ok r₁ =>
    obtain ⟨rfl, hroom⟩ := ensure_borrowed hholds hborrows hensure
    rw [hensure] at hr
    change v.memmove N h _ _ (v.size N - pos) >>= _ = _ at hr
    rw [hholds.sized.size] at hr
    cases hmove : v.memmove N h (pos + count) pos (values.length - pos) with
    | error e =>
      rw [hmove] at hr
      cases hr
    | ok r₁ =>
      have hend : pos = values.length := by
        by_contra hne
        exact memmove_borrowed hholds.stored hholds.sized hborrows (by omega) r₁ hmove
      rw [memmove, if_pos (by omega)] at hmove
      cases hmove
      rw [memmove, if_pos (by omega)] at hr
      cases hr
      exact ⟨hend, hroom, rfl⟩

/-- Into borrowed storage nothing is inserted. -/
theorem eq_nil_of_insertRange (hN : N < 2 ^ 31 - 1) (hholds : v.Holds N h values items) {pos : ℕ}
    (hpos : pos ≤ values.length) (hlt : values.length + xs.length < 2 ^ 31) {ptr : ℕ}
    (hborrows : v.Borrows ptr) {r : Heap T × Vec T} (hr : v.insertRange N h pos xs = .ok r) :
    xs = [] ∧ pos = values.length := by
  cases hopen : v.openGap N h pos xs.length with
  | error e =>
    rw [insertRange, hopen] at hr
    cases hr
  | ok r₁ =>
    obtain ⟨hend, hroom, rfl⟩ := openGap_borrowed hholds hpos hlt hborrows hopen
    refine ⟨?_, hend⟩
    rw [insertRange, hopen] at hr
    change placeAll N h { v with rawSize := u32 (v.rawSize + xs.length) } pos xs = _ at hr
    cases xs with
    | nil => rfl
    | cons x xs =>
      exfalso
      have hsized := hholds.sized_add hN hroom hlt
      rw [placeAll] at hr
      cases hplace : place N h { v with rawSize := u32 (v.rawSize + (x :: xs).length) } pos x with
      | error e =>
        rw [hplace] at hr
        cases hr
      | ok r₁ =>
        exact place_borrowed (v := { v with rawSize := u32 (v.rawSize + (x :: xs).length) })
          hholds.stored hsized hborrows pos x r₁ hplace

theorem eq_zero_of_insertCount (hN : N < 2 ^ 31 - 1) (hholds : v.Holds N h values items)
    {pos count : ℕ} (hpos : pos ≤ values.length) (hlt : values.length + count < 2 ^ 31) {ptr : ℕ}
    (hborrows : v.Borrows ptr) {value : Ref T} {r : Heap T × Vec T}
    (hr : v.insertCount N h pos count value = .ok r) : count = 0 ∧ pos = values.length := by
  cases hopen : v.openGap N h pos count with
  | error e =>
    rw [insertCount, hopen] at hr
    cases hr
  | ok r₁ =>
    obtain ⟨hend, hroom, rfl⟩ := openGap_borrowed hholds hpos hlt hborrows hopen
    refine ⟨?_, hend⟩
    rw [insertCount, hopen] at hr
    change placeCopies N v value h { v with rawSize := u32 (v.rawSize + count) } pos count = _ at hr
    cases count with
    | zero => rfl
    | succ count =>
      exfalso
      have hsized := hholds.sized_add hN hroom hlt
      rw [placeCopies] at hr
      cases hread : read h v { v with rawSize := u32 (v.rawSize + (count + 1)) } value with
      | error e =>
        rw [hread] at hr
        cases hr
      | ok x =>
        rw [hread] at hr
        change place N h { v with rawSize := u32 (v.rawSize + (count + 1)) } pos x >>= _ = _ at hr
        cases hplace : place N h { v with rawSize := u32 (v.rawSize + (count + 1)) } pos x with
        | error e =>
          rw [hplace] at hr
          cases hr
        | ok r₁ =>
          exact place_borrowed (v := { v with rawSize := u32 (v.rawSize + (count + 1)) })
            hholds.stored hsized hborrows pos x r₁ hplace

/-- An element is added; one of the vector itself is still there if the storage is. -/
theorem pushBack_spec (hN : N < 2 ^ 31 - 1) (hholds : v.Holds N h values items)
    (hlt : values.length + 1 < 2 ^ 31) (hmine : v.Mine) {value : Ref T} {x : T}
    (hvalue : value = .value x ∨ ∃ i, value = .own i ∧ values.length + 1 ≤ items.length ∧
      values[i]? = some x) :
    ∃ h' v' items', v.pushBack N h value = .ok (h', v') ∧ v'.Holds N h' (values ++ [x]) items' ∧
      Frame h v h' v' := by
  have hnew : u32 (v.size N + 1) = values.length + 1 := by
    rw [hholds.sized.size, u32_eq (by omega)]
  have hgrown : u32 (values.length + 1 + (values.length + 1) / 2) =
      values.length + 1 + (values.length + 1) / 2 := u32_eq (by omega)
  obtain ⟨h₁, v₁, items₁, hensure, hholds₁, hroom, hframe₁, hstay, -⟩ := ensure_refs hN hholds
    (values.length + 1) (values.length + 1 + (values.length + 1) / 2) (.inr hmine) (by omega) (by omega)
  have hread : read h₁ v v₁ value = .ok x := by
    obtain rfl | ⟨i, rfl, hfits, hx⟩ := hvalue
    · rfl
    · obtain ⟨hshape, rfl⟩ := hstay hfits
      have hi : i < values.length := (List.getElem?_eq_some_iff.mp hx).1
      have htake : (items₁.take values.length)[i]? = (values.map some)[i]? := by rw [hholds₁.take]
      rw [List.getElem?_take_of_lt hi, List.getElem?_map, hx] at htake
      rw [read_own hholds₁.stored hshape, cell, htake]
      rfl
  obtain ⟨h₂, v₂, hplace, hstored₂, hraw₂, hkept₂⟩ := place_spec values.length x hholds₁.stored
    hholds₁.sized (hframe₁.mine hmine) (by omega) (by omega)
  have hsized := hholds₁.sized_add hN hroom hlt
  refine ⟨h₂, { v₂ with rawSize := u32 (v₂.rawSize + 1) }, _, ?_, ⟨hstored₂, ?_, ?_, ?_⟩,
    hframe₁.trans (Kept.frame ⟨hkept₂.shape, hkept₂.length, hkept₂.others⟩)⟩
  · rw [pushBack]
    dsimp only
    rw [hnew, hgrown, hensure]
    change read h₁ v v₁ value >>= _ = _
    rw [hread]
    change v₁.place N h₁ (v₁.size N) x >>= _ = _
    rw [hholds₁.sized.size, hplace]
    rfl
  · rw [List.length_append]
    refine hsized.congr { v₂ with rawSize := u32 (v₂.rawSize + 1) } hkept₂.shape ?_
    dsimp only
    rw [hraw₂]
  · rw [List.length_append, List.length_set]
    exact hroom
  · exact take_set_length hholds₁ hroom x

theorem not_pushBack_own (hN : N < 2 ^ 31 - 1) (hholds : v.Holds N h values items)
    (hlt : values.length + 1 < 2 ^ 31) (hmine : v.Mine)
    (hgrows : items.length < values.length + 1) (i : ℕ) (r : Heap T × Vec T) :
    v.pushBack N h (.own i) ≠ .ok r := by
  have hnew : u32 (v.size N + 1) = values.length + 1 := by
    rw [hholds.sized.size, u32_eq (by omega)]
  have hgrown : u32 (values.length + 1 + (values.length + 1) / 2) =
      values.length + 1 + (values.length + 1) / 2 := u32_eq (by omega)
  obtain ⟨h₁, v₁, items₁, hensure, -, -, -, -, hgone⟩ := ensure_refs hN hholds
    (values.length + 1) (values.length + 1 + (values.length + 1) / 2) (.inr hmine) (by omega) (by omega)
  intro hr
  rw [pushBack] at hr
  dsimp only at hr
  rw [hnew, hgrown, hensure] at hr
  change read h₁ v v₁ (.own i) >>= _ = _ at hr
  cases hread : read h₁ v v₁ (.own i) with
  | error e =>
    rw [hread] at hr
    cases hr
  | ok x => exact read_of_dangles (hgone hgrows) i x hread

theorem not_pushBack (hholds : v.Holds N h values items) (value : Ref T) {ptr : ℕ}
    (hborrows : v.Borrows ptr) (r : Heap T × Vec T) : v.pushBack N h value ≠ .ok r := by
  intro hr
  rw [pushBack] at hr
  dsimp only at hr
  cases hensure : v.ensure N h (u32 (v.size N + 1))
      (u32 (u32 (v.size N + 1) + u32 (v.size N + 1) / 2)) with
  | error e =>
    rw [hensure] at hr
    cases hr
  | ok r₁ =>
    obtain ⟨rfl, -⟩ := ensure_borrowed hholds hborrows hensure
    rw [hensure] at hr
    change read h v v value >>= _ = _ at hr
    cases hread : read h v v value with
    | error e =>
      rw [hread] at hr
      cases hr
    | ok x =>
      rw [hread] at hr
      change v.place N h (v.size N) x >>= _ = _ at hr
      cases hplace : v.place N h (v.size N) x with
      | error e =>
        rw [hplace] at hr
        cases hr
      | ok r₂ => exact place_borrowed hholds.stored hholds.sized hborrows _ x r₂ hplace

/-! ## Objects that begin and end -/

theorem raw_holds (h : Heap T) : (raw N).Holds N h ([] : List T) (List.replicate N none) where
  stored := ⟨rfl, List.length_replicate⟩
  sized := ⟨rfl, Nat.zero_le N⟩
  le := Nat.zero_le _
  take := rfl

theorem raw_mine : (raw N : Vec T).Mine := by
  rintro ptr ⟨_, hshape⟩
  cases hshape

theorem construct_spec (hN : N < 2 ^ 31 - 1) (h : Heap T) (hxs : xs.length < 2 ^ 31) :
    ∃ h' v' items', construct N h xs = .ok (h', v') ∧ v'.Holds N h' xs items' ∧
      Frame h (raw N) h' v' := by
  obtain ⟨h₁, v₁, items₁, hchange, hholds₁, hroom, hframe₁⟩ := changeCapacity_spec hN (raw_holds h)
    raw_mine xs.length (Nat.zero_le _)
  obtain ⟨h₂, v₂, items₂, hfill, hholds₂, -, hkept₂⟩ := fill_spec hN hholds₁ xs
    (.inr (hframe₁.mine raw_mine)) (by rw [List.length_nil]; omega) (by rw [List.length_nil]; omega)
  refine ⟨h₂, v₂, items₂, ?_, hholds₂, hframe₁.trans hkept₂.frame⟩
  rw [construct, hchange]
  exact hfill

/-- Another object keeps what it holds. -/
theorem Holds.frame (hholds : w.Holds N h values items) (hframe : Frame h v h' v')
    (hother : ∀ capacity ptr owned, w.shape = some (capacity, ptr, owned) → ¬ v.Owns ptr) :
    w.Holds N h' values items where
  stored := by
    apply hholds.stored.frame
    intro capacity ptr owned hshape
    apply hframe.others ptr
    · have hstored := hholds.stored
      obtain ⟨rawSize, storage⟩ := w
      cases storage with
      | direct items₀ => cases hshape
      | indirect capacity' ptr' owned' =>
        cases hshape
        exact (List.getElem?_eq_some_iff.mp hstored.1).1
    · exact hother capacity ptr owned hshape
  sized := hholds.sized
  le := hholds.le
  take := hholds.take

theorem copy_spec (hN : N < 2 ^ 31 - 1) (hholds : w.Holds N h values items)
    (hlt : values.length < 2 ^ 31) :
    ∃ h' v' items', copy N h w = .ok (h', v') ∧ v'.Holds N h' values items' ∧
      Frame h (raw N) h' v' := by
  obtain ⟨h₁, v₁, items₁, hchange, hholds₁, hroom, hframe₁⟩ := changeCapacity_spec hN (raw_holds h)
    raw_mine values.length (Nat.zero_le _)
  obtain ⟨h₂, v₂, items₂, hfill, hholds₂, -, hkept₂⟩ := fill_spec hN hholds₁ values
    (.inr (hframe₁.mine raw_mine)) (by rw [List.length_nil]; omega) (by rw [List.length_nil]; omega)
  have hother := hholds.frame hframe₁ (by
    rintro _ ptr _ - ⟨_, hshape⟩
    cases hshape)
  refine ⟨h₂, v₂, items₂, ?_, hholds₂, hframe₁.trans hkept₂.frame⟩
  rw [copy, hholds.sized.size, hchange]
  change w.contents N h₁ >>= _ = _
  rw [hother.contents]
  exact hfill

/-- A vector over the bytes of a `ConstBuffer`. -/
theorem ofBuffer_holds (hN : N < 2 ^ 31 - 1) {ptr : ℕ} (hptr : h[ptr]? = some (some (xs.map some)))
    (hxs : xs.length < 2 ^ 31) : (ofBuffer N xs.length ptr).Holds N h xs (xs.map some) where
  stored := ⟨hptr, List.length_map some⟩
  sized := by
    change u32 (xs.length + N + 1) = xs.length + (N + 1)
    rw [u32_eq (by omega)]
    omega
  le := (List.length_map some).ge
  take := by rw [← List.length_map some, List.take_length]

variable [Inhabited T]

/-- `operator=`, when the other object has other storage. -/
theorem assignFrom_spec (hN : N < 2 ^ 31 - 1) (hholds : v.Holds N h values items)
    (hlt : values.length < 2 ^ 31) (hw : w.Holds N h xs items') (hxs : xs.length < 2 ^ 31)
    (hother : ∀ capacity ptr owned, w.shape = some (capacity, ptr, owned) → ¬ v.Owns ptr)
    (hmine : v.Mine) :
    ∃ h' v' items', v.assignFrom N h w = .ok (h', v') ∧ v'.Holds N h' xs items' ∧
      Frame h v h' v' := by
  obtain ⟨h₁, v₁, items₁, hresize, hholds₁, -, hkept₁⟩ := truncate_spec (n := 0) hholds hlt
    (Nat.zero_le _)
  rw [List.take_zero] at hholds₁
  have hmine₁ := hkept₁.frame.mine hmine
  obtain ⟨h₂, v₂, items₂, hchange, hholds₂, hroom, hframe₂⟩ := changeCapacity_spec hN hholds₁ hmine₁
    xs.length (Nat.zero_le _)
  have hframe := hkept₁.frame.trans hframe₂
  have hw₂ := hw.frame hframe hother
  obtain ⟨h₃, v₃, items₃, hfill, hholds₃, -, hkept₃⟩ := fill_spec hN hholds₂ xs
    (.inr (hframe₂.mine hmine₁)) (by rw [List.length_nil]; omega) (by rw [List.length_nil]; omega)
  refine ⟨h₃, v₃, items₃, ?_, hholds₃, hframe.trans hkept₃.frame⟩
  rw [assignFrom, hresize]
  change v₁.changeCapacity N h₁ (w.size N) >>= _ = _
  rw [hw.sized.size, hchange]
  change w.contents N h₂ >>= _ = _
  rw [hw₂.contents]
  exact hfill

theorem not_assignFrom (hholds : v.Holds N h values items) (hlt : values.length < 2 ^ 31) {ptr : ℕ}
    (hborrows : v.Borrows ptr) (r : Heap T × Vec T) : v.assignFrom N h w ≠ .ok r := by
  obtain ⟨h₁, v₁, items₁, hresize, hholds₁, -, hkept₁⟩ := truncate_spec (n := 0) hholds hlt
    (Nat.zero_le _)
  have hborrows₁ : v₁.Borrows ptr := by
    rw [Borrows, hkept₁.shape]
    exact hborrows
  intro hr
  rw [assignFrom, hresize] at hr
  change v₁.changeCapacity N h₁ (w.size N) >>= _ = _ at hr
  cases hchange : v₁.changeCapacity N h₁ (w.size N) with
  | error e =>
    rw [hchange] at hr
    cases hr
  | ok r₁ => exact changeCapacity_borrowed hholds₁ hborrows₁ _ r₁ hchange

/-- The destructor frees owned storage and no other. -/
theorem destroy_spec (hholds : v.Holds N h values items) (hlt : values.length < 2 ^ 31) :
    ∃ h', v.destroy N h = .ok h' ∧ h'.length = h.length ∧
      ∀ ptr, ¬ v.Owns ptr → h'[ptr]? = h[ptr]? := by
  obtain ⟨h₁, v₁, items₁, hresize, hholds₁, -, hkept₁⟩ := truncate_spec (n := 0) hholds hlt
    (Nat.zero_le _)
  have hdirect := hholds₁.sized.isDirect_iff
  rw [destroy, hresize]
  change ∃ h', (if v₁.IsDirect N then _ else _) = _ ∧ _
  obtain ⟨rawSize, storage⟩ := v₁
  cases storage with
  | direct items₀ =>
    rw [if_pos (hdirect.mpr rfl)]
    exact ⟨h₁, rfl, hkept₁.length, hkept₁.others⟩
  | indirect capacity ptr owned =>
    rw [if_neg (fun h => absurd (hdirect.mp h) nofun)]
    cases owned with
    | false => exact ⟨h₁, rfl, hkept₁.length, hkept₁.others⟩
    | true =>
      refine ⟨h₁.set ptr none, rfl, List.length_set.trans hkept₁.length, ?_⟩
      intro ptr' hptr'
      have hne : ptr ≠ ptr' := by
        rintro rfl
        exact hptr' ⟨capacity, hkept₁.shape.symm⟩
      exact (List.getElem?_set_ne hne).trans (hkept₁.others ptr' hptr')

end

end Vec

end Prevector
