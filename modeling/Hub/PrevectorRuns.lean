/-
# Runs over small vectors

A program uses any number of small vectors (`Hub.Prevector`) over some `ConstBuffer`s, beside plain
vectors that go through the same operations.

The small vectors show what the plain ones hold, and leave the buffers alone, as long as no operation
makes a vector that borrows the bytes of a buffer longer, moves its elements, or changes its capacity,
and no vector is given a reference to an element of its own that is moved, or left behind with the
storage, before it is read (`program_goes_iff_meets`).
-/
import Hub.Prevector
import Mathlib.Logic.Equiv.Basic
import Mathlib.Logic.Function.Basic

namespace Prevector

variable {T : Type} [Inhabited T]

/-! ## Operations -/

/-- How an object begins. -/
inductive Creation (T : Type) where
  | empty
  | size (n : ℕ)
  | filled (n : ℕ) (value : T)
  | range (values : List T)
  | copy (j : ℕ)
  | buffer (k : ℕ)

/-- An operation on one object.  As for `std::vector`, the value of `assign` and the elements of a range
are not those of the object itself; a single element that is added may be. -/
inductive Mutation (T : Type) where
  | assign (n : ℕ) (value : T)
  | assignRange (values : List T)
  | resize (n : ℕ)
  | reserve (n : ℕ)
  | shrinkToFit
  | clear
  | insert (pos : ℕ) (value : Ref T)
  | insertCount (pos count : ℕ) (value : Ref T)
  | insertRange (pos : ℕ) (values : List T)
  | erase (pos : ℕ)
  | eraseRange (first last : ℕ)
  | pushBack (value : Ref T)
  | popBack

/-- An operation on the objects of a program. -/
inductive Op (T : Type) where
  | create (i : ℕ) (creation : Creation T)
  | mutate (i : ℕ) (mutation : Mutation T)
  | assignFrom (i j : ℕ)
  | swap (i j : ℕ)
  | destroy (i : ℕ)

/-! ## Plain vectors -/

/-- The element of a plain vector that is meant. -/
def Ref.get (xs : List T) : Ref T → T
  | .value x => x
  | .own i => xs.getD i default

/-- It is there. -/
def Ref.Allowed (xs : List T) : Ref T → Prop
  | .value _ => True
  | .own i => i < xs.length

/-- The operation on a plain vector. -/
def Mutation.plain (xs : List T) : Mutation T → List T
  | .assign n value => List.replicate n value
  | .assignRange values => values
  | .resize n => xs.take n ++ List.replicate (n - xs.length) default
  | .reserve _ => xs
  | .shrinkToFit => xs
  | .clear => []
  | .insert pos value => xs.take pos ++ ([value.get xs] ++ xs.drop pos)
  | .insertCount pos count value =>
      xs.take pos ++ (List.replicate count (value.get xs) ++ xs.drop pos)
  | .insertRange pos values => xs.take pos ++ (values ++ xs.drop pos)
  | .erase pos => xs.take pos ++ xs.drop (pos + 1)
  | .eraseRange first last => xs.take first ++ xs.drop last
  | .pushBack value => xs ++ [value.get xs]
  | .popBack => xs.take (xs.length - 1)

/-- Positions lie in the vector, sizes are counts that `Diff` holds, and the argument of `reserve` is
a `Size`. -/
def Mutation.Allowed (xs : List T) (m : Mutation T) : Prop :=
  (m.plain xs).length < 2 ^ 31 ∧
    match m with
    | .reserve n => n < 2 ^ 32
    | .insert pos value => pos ≤ xs.length ∧ value.Allowed xs
    | .insertCount pos _ value => pos ≤ xs.length ∧ value.Allowed xs
    | .insertRange pos _ => pos ≤ xs.length
    | .erase pos => pos < xs.length
    | .eraseRange first last => first ≤ last ∧ last ≤ xs.length
    | .pushBack value => value.Allowed xs
    | .popBack => xs ≠ []
    | _ => True

/-- What is left for a vector that borrows its storage: nothing gets longer, is moved, or needs
another capacity. -/
def Mutation.Truncates (xs : List T) (capacity : ℕ) : Mutation T → Prop
  | .assign n _ => n = 0
  | .assignRange values => values = []
  | .resize n => n ≤ xs.length
  | .reserve n => n ≤ capacity
  | .shrinkToFit => False
  | .clear => True
  | .insert _ _ => False
  | .insertCount pos count _ => count = 0 ∧ pos = xs.length
  | .insertRange pos values => values = [] ∧ pos = xs.length
  | .erase pos => pos + 1 = xs.length
  | .eraseRange _ last => last = xs.length
  | .pushBack _ => False
  | .popBack => True

/-- The reference is read `count` times after a gap was opened at `pos`: then the storage must not have
to grow, and the element must not have moved, or an equal one must have come to its place. -/
def Ref.Steady (xs : List T) (capacity pos count : ℕ) : Ref T → Prop
  | .value _ => True
  | .own i => count = 0 ∨
      (xs.length + count ≤ capacity ∧ (i < pos + count ∨ xs[i - count]? = xs[i]?))

/-- The references of an operation are such ones. -/
def Mutation.Steady (xs : List T) (capacity : ℕ) : Mutation T → Prop
  | .insert pos value => value.Steady xs capacity pos 1
  | .insertCount pos count value => value.Steady xs capacity pos count
  | .pushBack value => value.Steady xs capacity xs.length 1
  | _ => True

/-! ## Small vectors -/

section

variable (N : ℕ)

/-- The operation on a small vector. -/
def Mutation.apply (h : Heap T) (v : Vec T) : Mutation T → Except Fault (Heap T × Vec T)
  | .assign n value => v.assign N h (List.replicate n value)
  | .assignRange values => v.assign N h values
  | .resize n => v.resize N h n
  | .reserve n => v.ensure N h n n
  | .shrinkToFit => v.changeCapacity N h (v.size N)
  | .clear => v.resize N h 0
  | .insert pos value => v.insert N h pos value
  | .insertCount pos count value => v.insertCount N h pos count value
  | .insertRange pos values => v.insertRange N h pos values
  | .erase pos => v.erase N h pos (pos + 1)
  | .eraseRange first last => v.erase N h first last
  | .pushBack value => v.pushBack N h value
  | .popBack => v.erase N h (v.size N - 1) (v.size N)

/-- The memory, and the objects of the program. -/
structure State (T : Type) where
  heap : Heap T
  vecs : ℕ → Option (Vec T)

/-- A program starts with its `ConstBuffer`s, the first blocks of the memory. -/
def start (buffers : List (List T)) : State T := ⟨buffers.map fun bytes => some (bytes.map some),
  fun _ => none⟩

/-- The constructors. -/
def Creation.apply (buffers : List (List T)) (s : State T) :
    Creation T → Except Fault (Heap T × Vec T)
  | .empty => .ok (s.heap, Vec.raw N)
  | .size n => (Vec.raw N).resize N s.heap n
  | .filled n value => Vec.construct N s.heap (List.replicate n value)
  | .range values => Vec.construct N s.heap values
  | .copy j =>
      match s.vecs j with
      | none => .ok (s.heap, Vec.raw N)
      | some other => Vec.copy N s.heap other
  | .buffer k =>
      match buffers[k]? with
      | none => .ok (s.heap, Vec.raw N)
      | some bytes => .ok (s.heap, Vec.ofBuffer N bytes.length k)

/-- Operations on objects that are not there do nothing. -/
def State.step (buffers : List (List T)) (s : State T) : Op T → Except Fault (State T)
  | .create i creation => do
      let r ← creation.apply N buffers s
      .ok ⟨r.1, Function.update s.vecs i (some r.2)⟩
  | .mutate i mutation =>
      match s.vecs i with
      | none => .ok s
      | some v => do
          let r ← mutation.apply N s.heap v
          .ok ⟨r.1, Function.update s.vecs i (some r.2)⟩
  | .assignFrom i j =>
      match s.vecs i, s.vecs j with
      | some v, some other =>
          if i = j then .ok s
          else do
            let r ← v.assignFrom N s.heap other
            .ok ⟨r.1, Function.update s.vecs i (some r.2)⟩
      | _, _ => .ok s
  | .swap i j => .ok ⟨s.heap, Function.update (Function.update s.vecs i (s.vecs j)) j (s.vecs i)⟩
  | .destroy i =>
      match s.vecs i with
      | none => .ok s
      | some v => do
          let h ← v.destroy N s.heap
          .ok ⟨h, Function.update s.vecs i none⟩

end

/-! ## Programs -/

/-- The plain vectors of a program. -/
abbrev Plain (T : Type) := ℕ → Option (List T)

/-- The contents that a constructor gives. -/
def Creation.plain (buffers : List (List T)) (p : Plain T) : Creation T → List T
  | .empty => []
  | .size n => List.replicate n default
  | .filled n value => List.replicate n value
  | .range values => values
  | .copy j => (p j).getD []
  | .buffer k => buffers[k]?.getD []

def Op.plain (buffers : List (List T)) (p : Plain T) : Op T → Plain T
  | .create i creation => Function.update p i (some (creation.plain buffers p))
  | .mutate i mutation => Function.update p i ((p i).map mutation.plain)
  | .assignFrom i j => Function.update p i (p j)
  | .swap i j => Function.update (Function.update p i (p j)) j (p i)
  | .destroy i => Function.update p i none

/-- The objects are there, or not there yet. -/
def Op.Allowed (buffers : List (List T)) (p : Plain T) : Op T → Prop
  | .create i creation => p i = none ∧ (creation.plain buffers p).length < 2 ^ 31 ∧
      match creation with
      | .copy j => p j ≠ none
      | .buffer k => k < buffers.length
      | _ => True
  | .mutate i mutation => ∃ xs, p i = some xs ∧ mutation.Allowed xs
  | .assignFrom i j => p i ≠ none ∧ p j ≠ none
  | .swap i j => p i ≠ none ∧ p j ≠ none
  | .destroy i => p i ≠ none

/-- What is seen: the contents of the objects, their sizes and capacities, and the buffers. -/
structure Good (N : ℕ) (buffers : List (List T)) (s : State T) (p : Plain T) : Prop where
  contents : ∀ i, (s.vecs i).map (Vec.contents N s.heap) = (p i).map Except.ok
  room : ∀ i v, s.vecs i = some v → v.size N ≤ v.capacity N
  buffers : ∀ k (hk : k < buffers.length), s.heap[k]? = some (some ((buffers.get ⟨k, hk⟩).map some))

/-- A program goes through, and after every step all is well. -/
def State.Goes (N : ℕ) (buffers : List (List T)) : State T → Plain T → List (Op T) → Prop
  | _, _, [] => True
  | s, p, op :: ops => op.Allowed buffers p → ∃ s', s.step N buffers op = .ok s' ∧
      Good N buffers s' (op.plain buffers p) ∧ State.Goes N buffers s' (op.plain buffers p) ops

/-- A vector that borrows its storage is only made shorter; it is not assigned to, other than from
itself.  A vector that is given an element of its own finds it where it was. -/
def State.StepOk (N : ℕ) (s : State T) (p : Plain T) : Op T → Prop
  | .mutate i mutation => ∀ v xs, s.vecs i = some v → p i = some xs →
      (¬ v.Mine → mutation.Truncates xs (v.capacity N)) ∧ mutation.Steady xs (v.capacity N)
  | .assignFrom i j => i = j ∨ ∀ v, s.vecs i = some v → v.Mine
  | _ => True

/-- Every step of a program, with operations as allowed, is such a one. -/
def State.Meets (N : ℕ) (buffers : List (List T)) : State T → Plain T → List (Op T) → Prop
  | _, _, [] => True
  | s, p, op :: ops => op.Allowed buffers p → s.StepOk N p op ∧
      ∀ s', s.step N buffers op = .ok s' → State.Meets N buffers s' (op.plain buffers p) ops

/-! ## One object -/

section

variable {N : ℕ} {h : Heap T} {v : Vec T} {xs : List T} {items : Cells T}

omit [Inhabited T] in
theorem length_insert {pos : ℕ} (hpos : pos ≤ xs.length) (ys : List T) :
    (xs.take pos ++ (ys ++ xs.drop pos)).length = xs.length + ys.length := by
  rw [List.length_append, List.length_append, List.length_take, List.length_drop]
  omega

/-- The element that is meant is there. -/
theorem Ref.getElem?_get {i : ℕ} (hi : i < xs.length) :
    xs[i]? = some ((Ref.own i : Ref T).get xs) := by
  rw [Ref.get, List.getD_eq_getElem?_getD, List.getElem?_eq_getElem hi]
  rfl

/-- A reference that is steady reads the element that is meant. -/
theorem Ref.Steady.shifted {value : Ref T} {capacity pos count : ℕ}
    (hsteady : value.Steady xs capacity pos count) (hallowed : value.Allowed xs) :
    count = 0 ∨ value = .value (value.get xs) ∨ ∃ i < xs.length, value = .own i ∧
      xs.length + count ≤ capacity ∧ value.shifted xs pos count = some (value.get xs) := by
  cases value with
  | value x => exact .inr (.inl rfl)
  | own i =>
    have hi : i < xs.length := hallowed
    refine hsteady.imp_right fun h => .inr ⟨i, hi, rfl, h.1, ?_⟩
    rw [Ref.shifted]
    split
    · exact Ref.getElem?_get hi
    · next hge => exact (h.2.resolve_left hge).trans (Ref.getElem?_get hi)

/-- Copies that were made while the elements move show that the reference was steady. -/
theorem Ref.steady_of_insertCount (hN : N < 2 ^ 31 - 1) (hholds : v.Holds N h xs items)
    {pos count : ℕ} (hpos : pos ≤ xs.length) (hlt : xs.length + count < 2 ^ 31) {value : Ref T}
    (hallowed : value.Allowed xs) {h' : Heap T} {v' : Vec T}
    (hr : v.insertCount N h pos count value = .ok (h', v'))
    (hcontents : v'.contents N h' =
      .ok (xs.take pos ++ (List.replicate count (value.get xs) ++ xs.drop pos))) :
    value.Steady xs (v.capacity N) pos count := by
  rw [hholds.stored.capacity hholds.sized]
  cases value with
  | value x => trivial
  | own i =>
    have hi : i < xs.length := hallowed
    by_cases hcount : count = 0
    · exact .inl hcount
    have hmine : v.Mine := by
      intro ptr hborrows
      exact hcount (Vec.eq_zero_of_insertCount hN hholds hpos hlt hborrows hr).1
    by_cases hfits : xs.length + count ≤ items.length
    · refine .inr ⟨hfits, or_iff_not_imp_left.mpr fun hge => ?_⟩
      -- the copies are those of another element
      obtain ⟨x, hx⟩ : ∃ x, xs[i - count]? = some x :=
        ⟨_, List.getElem?_eq_getElem (by omega)⟩
      have hshifted : (Ref.own i : Ref T).shifted xs pos count = some x := by
        rw [Ref.shifted, if_neg hge, hx]
      obtain ⟨h₁, v₁, items₁, hrun, hholds₁, -⟩ := Vec.insertCount_spec hN hholds hpos hlt
        (.inr hmine) (.inr (.inr ⟨i, hi, rfl, hfits, hshifted⟩))
      cases hrun.symm.trans hr
      have heq := Except.ok.inj (hholds₁.contents.symm.trans hcontents)
      have hcopies := List.append_cancel_right (List.append_cancel_left heq)
      have hsame : x = (Ref.own i : Ref T).get xs :=
        List.eq_of_mem_replicate (hcopies ▸ List.mem_replicate.mpr ⟨hcount, rfl⟩)
      rw [hx, hsame, Ref.getElem?_get hi]
    · exact absurd hr (Vec.not_insertCount_own hN hholds hpos hlt hmine (Nat.not_le.mp hfits) i _)

/-- An operation that is allowed does the same to both vectors. -/
theorem Mutation.apply_spec (hN : N < 2 ^ 31 - 1) (hholds : v.Holds N h xs items)
    (hlt : xs.length < 2 ^ 31) {m : Mutation T} (hallowed : m.Allowed xs)
    (hok : ¬ v.Mine → m.Truncates xs (v.capacity N)) (hsteady : m.Steady xs (v.capacity N)) :
    ∃ h' v' items', m.apply N h v = .ok (h', v') ∧ v'.Holds N h' (m.plain xs) items' ∧
      Vec.Frame h v h' v' := by
  obtain ⟨hlt', hallowed⟩ := hallowed
  have hmine : m.Truncates xs (v.capacity N) ∨ v.Mine := or_iff_not_imp_right.mpr hok
  cases m with
  | assign n value =>
    apply Vec.assign_spec hN hholds hlt hlt'
    apply hmine.imp_left
    rintro rfl
    rfl
  | assignRange values => exact Vec.assign_spec hN hholds hlt hlt' hmine
  | resize n =>
    have hn : n < 2 ^ 31 := by
      change (xs.take n ++ List.replicate (n - xs.length) default).length < 2 ^ 31 at hlt'
      rw [List.length_append, List.length_take, List.length_replicate] at hlt'
      omega
    exact Vec.resize_spec hN hholds hlt hn hmine
  | reserve n =>
    by_cases hroom : n ≤ items.length
    · have hcapacity := hholds.stored.capacity hholds.sized
      refine ⟨h, v, items, ?_, hholds, (Vec.Kept.refl h v).frame⟩
      rw [Mutation.apply, Vec.ensure, hcapacity, if_neg (Nat.not_lt.mpr hroom)]
    · have hmine : n ≤ items.length ∨ v.Mine := by
        rw [← hholds.stored.capacity hholds.sized]
        exact hmine
      have hle : xs.length ≤ n := hholds.le.trans (Nat.le_of_not_le hroom)
      obtain ⟨h', v', items', hensure, hholds', -, hframe⟩ :=
        Vec.ensure_spec hN hholds n n hmine hle le_rfl
      exact ⟨h', v', items', hensure, hholds', hframe⟩
  | shrinkToFit =>
    have hmine := hmine.resolve_left id
    obtain ⟨h', v', items', hchange, hholds', -, hframe⟩ :=
      Vec.changeCapacity_spec hN hholds hmine xs.length le_rfl
    refine ⟨h', v', items', ?_, hholds', hframe⟩
    rw [Mutation.apply, hholds.sized.size]
    exact hchange
  | clear =>
    obtain ⟨h', v', items', hresize, hholds', -, hkept⟩ :=
      Vec.truncate_spec (n := 0) hholds hlt (Nat.zero_le _)
    exact ⟨h', v', items', hresize, hholds', hkept.frame⟩
  | insert pos value =>
    obtain ⟨hpos, hallowed⟩ := hallowed
    have hlen : (xs.take pos ++ ([value.get xs] ++ xs.drop pos)).length < 2 ^ 31 := hlt'
    rw [length_insert hpos] at hlen
    have hvalue := Ref.Steady.shifted hsteady hallowed
    rw [hholds.stored.capacity hholds.sized] at hvalue
    exact Vec.insertCount_spec hN hholds hpos hlen (.inr (hmine.resolve_left id)) hvalue
  | insertCount pos count value =>
    obtain ⟨hpos, hallowed⟩ := hallowed
    have hlen : (xs.take pos ++ (List.replicate count (value.get xs) ++ xs.drop pos)).length
        < 2 ^ 31 := hlt'
    rw [length_insert hpos, List.length_replicate] at hlen
    have hvalue := Ref.Steady.shifted hsteady hallowed
    rw [hholds.stored.capacity hholds.sized] at hvalue
    exact Vec.insertCount_spec hN hholds hpos hlen hmine hvalue
  | insertRange pos values =>
    have hlen : (xs.take pos ++ (values ++ xs.drop pos)).length < 2 ^ 31 := hlt'
    rw [length_insert hallowed] at hlen
    exact Vec.insertRange_spec hN hholds hallowed hlen hmine
  | erase pos =>
    have hpos : pos < xs.length := hallowed
    obtain ⟨h', v', items', herase, hholds', -, hkept⟩ :=
      Vec.erase_spec hholds (Nat.le_succ pos) hpos hmine hlt
    exact ⟨h', v', items', herase, hholds', hkept.frame⟩
  | eraseRange first last =>
    obtain ⟨h', v', items', herase, hholds', -, hkept⟩ :=
      Vec.erase_spec hholds hallowed.1 hallowed.2 hmine hlt
    exact ⟨h', v', items', herase, hholds', hkept.frame⟩
  | pushBack value =>
    have hlen : xs.length + 1 < 2 ^ 31 := by
      change (xs ++ [value.get xs]).length < 2 ^ 31 at hlt'
      rw [List.length_append] at hlt'
      exact hlt'
    refine Vec.pushBack_spec hN hholds hlen (hmine.resolve_left id) ?_
    obtain hzero | hvalue | ⟨i, hi, rfl, hfits, hshifted⟩ := Ref.Steady.shifted hsteady hallowed
    · cases hzero
    · exact .inl hvalue
    · rw [hholds.stored.capacity hholds.sized] at hfits
      rw [Ref.shifted, if_pos (by omega)] at hshifted
      exact .inr ⟨i, rfl, hfits, hshifted⟩
  | popBack =>
    obtain ⟨h', v', items', herase, hholds', -, hkept⟩ :=
      Vec.erase_spec hholds (Nat.sub_le xs.length 1) le_rfl (.inl rfl) hlt
    rw [List.drop_length, List.append_nil] at hholds'
    refine ⟨h', v', items', ?_, hholds', hkept.frame⟩
    rw [Mutation.apply, hholds.sized.size]
    exact herase

/-- And on borrowed storage, any other operation is stopped. -/
theorem Mutation.truncates_of_apply (hN : N < 2 ^ 31 - 1) (hholds : v.Holds N h xs items)
    (hlt : xs.length < 2 ^ 31) {m : Mutation T} (hallowed : m.Allowed xs) {ptr : ℕ}
    (hborrows : v.Borrows ptr) {r : Heap T × Vec T} (hr : m.apply N h v = .ok r) :
    m.Truncates xs (v.capacity N) := by
  obtain ⟨hlt', hallowed⟩ := hallowed
  cases m with
  | assign n value =>
    have hnil := Vec.eq_nil_of_assign hN hholds hlt hborrows hr
    exact (List.replicate_eq_nil_iff value).mp hnil
  | assignRange values => exact Vec.eq_nil_of_assign hN hholds hlt hborrows hr
  | resize n =>
    have hn : n < 2 ^ 31 := by
      change (xs.take n ++ List.replicate (n - xs.length) default).length < 2 ^ 31 at hlt'
      rw [List.length_append, List.length_take, List.length_replicate] at hlt'
      omega
    exact Vec.le_of_resize hN hholds hborrows hn hr
  | reserve n =>
    rw [Mutation.Truncates, hholds.stored.capacity hholds.sized]
    exact (Vec.ensure_borrowed hholds hborrows hr).2
  | shrinkToFit => exact absurd hr (Vec.changeCapacity_borrowed hholds hborrows _ r)
  | clear => trivial
  | insert pos value =>
    have hlen : (xs.take pos ++ ([value.get xs] ++ xs.drop pos)).length < 2 ^ 31 := hlt'
    rw [length_insert hallowed.1] at hlen
    exact absurd (Vec.eq_zero_of_insertCount hN hholds hallowed.1 hlen hborrows hr).1 one_ne_zero
  | insertCount pos count value =>
    have hlen : (xs.take pos ++ (List.replicate count (value.get xs) ++ xs.drop pos)).length
        < 2 ^ 31 := hlt'
    rw [length_insert hallowed.1, List.length_replicate] at hlen
    exact Vec.eq_zero_of_insertCount hN hholds hallowed.1 hlen hborrows hr
  | insertRange pos values =>
    have hlen : (xs.take pos ++ (values ++ xs.drop pos)).length < 2 ^ 31 := hlt'
    rw [length_insert hallowed] at hlen
    exact Vec.eq_nil_of_insertRange hN hholds hallowed hlen hborrows hr
  | erase pos =>
    by_contra hend
    change pos + 1 ≠ xs.length at hend
    change pos < xs.length at hallowed
    exact Vec.erase_borrowed hholds hborrows (Nat.le_succ pos) (by omega) r hr
  | eraseRange first last =>
    by_contra hend
    change last ≠ xs.length at hend
    obtain ⟨hle, hlast⟩ := hallowed
    exact Vec.erase_borrowed hholds hborrows hle (by omega) r hr
  | pushBack value => exact absurd hr (Vec.not_pushBack hholds value hborrows r)
  | popBack => trivial

/-- And an operation that leaves the contents of the plain vector had steady references. -/
theorem Mutation.steady_of_apply (hN : N < 2 ^ 31 - 1) (hholds : v.Holds N h xs items)
    {m : Mutation T} (hallowed : m.Allowed xs) {h' : Heap T} {v' : Vec T}
    (hr : m.apply N h v = .ok (h', v')) (hcontents : v'.contents N h' = .ok (m.plain xs)) :
    m.Steady xs (v.capacity N) := by
  obtain ⟨hlt, hallowed⟩ := hallowed
  cases m with
  | insert pos value =>
    have hlen : (xs.take pos ++ ([value.get xs] ++ xs.drop pos)).length < 2 ^ 31 := hlt
    rw [length_insert hallowed.1] at hlen
    exact Ref.steady_of_insertCount hN hholds hallowed.1 hlen hallowed.2 hr hcontents
  | insertCount pos count value =>
    have hlen : (xs.take pos ++ (List.replicate count (value.get xs) ++ xs.drop pos)).length
        < 2 ^ 31 := hlt
    rw [length_insert hallowed.1, List.length_replicate] at hlen
    exact Ref.steady_of_insertCount hN hholds hallowed.1 hlen hallowed.2 hr hcontents
  | pushBack value =>
    have hlen : xs.length + 1 < 2 ^ 31 := by
      change (xs ++ [value.get xs]).length < 2 ^ 31 at hlt
      rw [List.length_append] at hlt
      exact hlt
    cases value with
    | value x => trivial
    | own i =>
      have hi : i < xs.length := hallowed
      have hmine : v.Mine := fun ptr hborrows => Vec.not_pushBack hholds _ hborrows _ hr
      refine .inr ⟨?_, .inl (by omega)⟩
      rw [hholds.stored.capacity hholds.sized]
      by_contra hgrows
      exact Vec.not_pushBack_own hN hholds hlen hmine (Nat.not_le.mp hgrows) i _ hr
  | _ => trivial

end

/-! ## All objects -/

/-- The objects hold what the plain vectors do; storage that is owned has one owner and is no buffer,
and storage that is borrowed is one. -/
structure Inv (N : ℕ) (buffers : List (List T)) (s : State T) (p : Plain T) : Prop where
  holds : ∀ i v, s.vecs i = some v → ∃ xs items, p i = some xs ∧ v.Holds N s.heap xs items ∧
    xs.length < 2 ^ 31
  absent : ∀ i, s.vecs i = none → p i = none
  owns : ∀ i v ptr, s.vecs i = some v → v.Owns ptr → buffers.length ≤ ptr
  borrows : ∀ i v ptr, s.vecs i = some v → v.Borrows ptr → ptr < buffers.length
  separate : ∀ i j v w ptr, i ≠ j → s.vecs i = some v → s.vecs j = some w → v.Owns ptr →
    ¬ w.Owns ptr
  length : buffers.length ≤ s.heap.length
  buffers : ∀ k (hk : k < buffers.length), s.heap[k]? = some (some ((buffers.get ⟨k, hk⟩).map some))

section

variable {N : ℕ} {buffers : List (List T)} {s : State T} {p : Plain T}

omit [Inhabited T] in
theorem inv_start (N : ℕ) (buffers : List (List T)) :
    Inv N buffers (start buffers) fun _ => none where
  holds := nofun
  absent := fun _ _ => rfl
  owns := nofun
  borrows := nofun
  separate := nofun
  buffers := by
    intro k hk
    rw [start, List.getElem?_map, List.getElem?_eq_getElem hk]
    rfl
  length := (List.length_map _).ge

omit [Inhabited T] in
theorem Inv.good (hinv : Inv N buffers s p) : Good N buffers s p where
  contents := by
    intro i
    cases hv : s.vecs i with
    | none =>
      rw [hinv.absent i hv]
      rfl
    | some v =>
      obtain ⟨xs, items, hp, hholds, -⟩ := hinv.holds i v hv
      rw [hp, Option.map_some, Option.map_some, hholds.contents]
  room := by
    intro i v hv
    obtain ⟨xs, items, -, hholds, -⟩ := hinv.holds i v hv
    exact hholds.size_le_capacity
  buffers := hinv.buffers

omit [Inhabited T] in
/-- Owned storage is there. -/
theorem Inv.lt_length (hinv : Inv N buffers s p) {i : ℕ} {v : Vec T} (hv : s.vecs i = some v)
    {ptr : ℕ} (hown : v.Owns ptr) : ptr < s.heap.length := by
  obtain ⟨xs, items, -, hholds, -⟩ := hinv.holds i v hv
  obtain ⟨capacity, hshape⟩ := hown
  have hstored := hholds.stored
  obtain ⟨rawSize, storage⟩ := v
  cases storage with
  | direct items₀ => cases hshape
  | indirect capacity' ptr' owned' =>
    cases hshape
    exact (List.getElem?_eq_some_iff.mp hstored.1).1

omit [Inhabited T] in
/-- What one object owns, no other one uses. -/
theorem Inv.other (hinv : Inv N buffers s p) {i j : ℕ} (hne : i ≠ j) {v w : Vec T}
    (hv : s.vecs i = some v) (hw : s.vecs j = some w) (capacity ptr : ℕ) (owned : Bool)
    (hshape : w.shape = some (capacity, ptr, owned)) : ¬ v.Owns ptr := by
  intro hown
  cases owned with
  | false =>
    have hlt := hinv.borrows j w ptr hw ⟨capacity, hshape⟩
    have hge := hinv.owns i v ptr hv hown
    omega
  | true => exact hinv.separate i j v w ptr hne hv hw hown ⟨capacity, hshape⟩

omit [Inhabited T] in
/-- One object changes, or begins. -/
theorem Inv.replace (hinv : Inv N buffers s p) {i : ℕ} {v u v' : Vec T} {h' : Heap T} {xs : List T}
    {items : Cells T} (hv : s.vecs i = some v ∨ v.shape = none) (hframe : Vec.Frame s.heap v h' u)
    (hholds : v'.Holds N h' xs items) (hlt : xs.length < 2 ^ 31)
    (howns' : ∀ ptr, v'.Owns ptr → u.Owns ptr)
    (hborrows' : ∀ ptr, v'.Borrows ptr → u.Borrows ptr ∨ ptr < buffers.length) :
    Inv N buffers ⟨h', Function.update s.vecs i (some v')⟩ (Function.update p i (some xs)) := by
  have hother : ∀ j, j ≠ i → ∀ w, s.vecs j = some w → ∀ capacity ptr owned,
      w.shape = some (capacity, ptr, owned) → ¬ v.Owns ptr := by
    intro j hj w hw capacity ptr owned hshape
    obtain hv | hnone := hv
    · exact hinv.other hj.symm hv hw capacity ptr owned hshape
    · rintro ⟨_, hown⟩
      rw [hnone] at hown
      cases hown
  have howns : ∀ ptr, v.Owns ptr → buffers.length ≤ ptr := by
    intro ptr hown
    obtain hv | hnone := hv
    · exact hinv.owns i v ptr hv hown
    · obtain ⟨_, hown⟩ := hown
      rw [hnone] at hown
      cases hown
  -- what the object owns now is its own, or new
  have hseparate : ∀ j, j ≠ i → ∀ w, s.vecs j = some w → ∀ ptr, v'.Owns ptr → ¬ w.Owns ptr := by
    intro j hj w hw ptr hown hown'
    obtain hown | hge := hframe.owns ptr (howns' ptr hown)
    · obtain ⟨capacity, hshape⟩ := hown'
      exact hother j hj w hw capacity ptr true hshape hown
    · exact absurd (hinv.lt_length hw hown') (Nat.not_lt.mpr hge)
  refine ⟨?_, ?_, ?_, ?_, ?_, hinv.length.trans hframe.length, ?_⟩
  · intro j w hw
    dsimp only at hw ⊢
    by_cases hj : j = i
    · subst hj
      rw [Function.update_self] at hw ⊢
      cases hw
      exact ⟨xs, items, rfl, hholds, hlt⟩
    · rw [Function.update_of_ne hj] at hw ⊢
      obtain ⟨ys, items', hp, hholds', hlt'⟩ := hinv.holds j w hw
      exact ⟨ys, items', hp, hholds'.frame hframe (hother j hj w hw), hlt'⟩
  · intro j hw
    dsimp only at hw
    by_cases hj : j = i
    · subst hj
      rw [Function.update_self] at hw
      cases hw
    · rw [Function.update_of_ne hj] at hw ⊢
      exact hinv.absent j hw
  · intro j w ptr hw hown
    dsimp only at hw
    by_cases hj : j = i
    · subst hj
      rw [Function.update_self] at hw
      cases hw
      obtain hown | hge := hframe.owns ptr (howns' ptr hown)
      · exact howns ptr hown
      · exact hinv.length.trans hge
    · rw [Function.update_of_ne hj] at hw
      exact hinv.owns j w ptr hw hown
  · intro j w ptr hw hborrows
    dsimp only at hw
    by_cases hj : j = i
    · subst hj
      rw [Function.update_self] at hw
      cases hw
      obtain hborrows | hlt := hborrows' ptr hborrows
      · have hborrows := hframe.borrows ptr hborrows
        obtain hv | hnone := hv
        · exact hinv.borrows j v ptr hv hborrows
        · obtain ⟨_, hshape⟩ := hborrows
          rw [hnone] at hshape
          cases hshape
      · exact hlt
    · rw [Function.update_of_ne hj] at hw
      exact hinv.borrows j w ptr hw hborrows
  · intro j k w u ptr hjk hw hu hown hown'
    dsimp only at hw hu
    by_cases hj : j = i
    · subst hj
      rw [Function.update_self] at hw
      rw [Function.update_of_ne hjk.symm] at hu
      cases hw
      exact hseparate k hjk.symm u hu ptr hown hown'
    · rw [Function.update_of_ne hj] at hw
      by_cases hk : k = i
      · subst hk
        rw [Function.update_self] at hu
        cases hu
        exact hseparate j hj w hw ptr hown' hown
      · rw [Function.update_of_ne hk] at hu
        exact hinv.separate j k w u ptr hjk hw hu hown hown'
  · intro k hk
    have hno : ¬ v.Owns k := fun hown => absurd hk (Nat.not_lt.mpr (howns k hown))
    exact (hframe.others k (hk.trans_le hinv.length) hno).trans (hinv.buffers k hk)

omit [Inhabited T] in
/-- One object ends. -/
theorem Inv.remove (hinv : Inv N buffers s p) (i : ℕ) :
    Inv N buffers ⟨s.heap, Function.update s.vecs i none⟩ (Function.update p i none) := by
  have hsome : ∀ j v, Function.update s.vecs i none j = some v → j ≠ i ∧ s.vecs j = some v := by
    intro j v hv
    by_cases hj : j = i
    · rw [hj, Function.update_self] at hv
      cases hv
    · rw [Function.update_of_ne hj] at hv
      exact ⟨hj, hv⟩
  refine ⟨?_, ?_, ?_, ?_, ?_, hinv.length, hinv.buffers⟩
  · intro j v hv
    obtain ⟨hj, hv⟩ := hsome j v hv
    rw [Function.update_of_ne hj]
    exact hinv.holds j v hv
  · intro j hv
    dsimp only at hv
    by_cases hj : j = i
    · rw [hj, Function.update_self]
    · rw [Function.update_of_ne hj] at hv ⊢
      exact hinv.absent j hv
  · intro j v ptr hv
    exact hinv.owns j v ptr (hsome j v hv).2
  · intro j v ptr hv
    exact hinv.borrows j v ptr (hsome j v hv).2
  · intro j k v w ptr hjk hv hw
    exact hinv.separate j k v w ptr hjk (hsome j v hv).2 (hsome k w hw).2

omit [Inhabited T] in
/-- The objects get other names. -/
theorem Inv.rename (hinv : Inv N buffers s p) {f : ℕ → ℕ} (hf : Function.Injective f) :
    Inv N buffers ⟨s.heap, s.vecs ∘ f⟩ (p ∘ f) where
  holds := fun i => hinv.holds (f i)
  absent := fun i => hinv.absent (f i)
  owns := fun i => hinv.owns (f i)
  borrows := fun i => hinv.borrows (f i)
  separate := fun i j v w ptr hij => hinv.separate (f i) (f j) v w ptr (hf.ne hij)
  length := hinv.length
  buffers := hinv.buffers

/-! ## Steps -/

omit [Inhabited T] in
theorem Inv.exists_vec (hinv : Inv N buffers s p) {i : ℕ} (hp : p i ≠ none) :
    ∃ v xs items, s.vecs i = some v ∧ p i = some xs ∧ v.Holds N s.heap xs items ∧
      xs.length < 2 ^ 31 := by
  cases hv : s.vecs i with
  | none => exact absurd (hinv.absent i hv) hp
  | some v =>
    obtain ⟨xs, items, hspec⟩ := hinv.holds i v hv
    exact ⟨v, xs, items, rfl, hspec⟩

/-- A new object. -/
theorem Inv.create (hN : N < 2 ^ 31 - 1) (hinv : Inv N buffers s p) {i : ℕ} {c : Creation T}
    (hallowed : (Op.create i c).Allowed buffers p) : ∃ s', s.step N buffers (.create i c) = .ok s' ∧
      Inv N buffers s' ((Op.create i c).plain buffers p) := by
  obtain ⟨-, hlt, hallowed⟩ := hallowed
  have hcreated : ∀ {h' v' items' xs}, xs.length < 2 ^ 31 → Vec.Holds N h' v' xs items' →
      Vec.Frame s.heap (Vec.raw N) h' v' →
        Inv N buffers ⟨h', Function.update s.vecs i (some v')⟩ (Function.update p i (some xs)) := by
    intro h' v' items' xs hlt hholds hframe
    exact hinv.replace (.inr rfl) hframe hholds hlt (fun _ => id) fun _ => .inl
  cases c with
  | empty =>
    exact ⟨_, rfl, hcreated hlt (Vec.raw_holds s.heap) (Vec.Kept.refl _ _).frame⟩
  | size n =>
    change (List.replicate n (default : T)).length < 2 ^ 31 at hlt
    obtain ⟨h', v', items', hresize, hholds, hframe⟩ := Vec.resize_spec (n := n) hN
      (Vec.raw_holds s.heap) (Nat.two_pow_pos 31) (by rwa [List.length_replicate] at hlt) (.inr Vec.raw_mine)
    refine ⟨⟨h', Function.update s.vecs i (some v')⟩, ?_, ?_⟩
    · rw [State.step, Creation.apply, hresize]
      rfl
    · rw [List.take_nil, List.nil_append, List.length_nil, Nat.sub_zero] at hholds
      exact hcreated hlt hholds hframe
  | filled n value =>
    obtain ⟨h', v', items', hconstruct, hholds, hframe⟩ := Vec.construct_spec hN s.heap hlt
    refine ⟨⟨h', Function.update s.vecs i (some v')⟩, ?_, hcreated hlt hholds hframe⟩
    change (Vec.construct N s.heap (List.replicate n value) >>= _) = _
    change Vec.construct N s.heap (List.replicate n value) = _ at hconstruct
    rw [hconstruct]
    rfl
  | range values =>
    obtain ⟨h', v', items', hconstruct, hholds, hframe⟩ := Vec.construct_spec hN s.heap hlt
    refine ⟨⟨h', Function.update s.vecs i (some v')⟩, ?_, hcreated hlt hholds hframe⟩
    change (Vec.construct N s.heap values >>= _) = _
    change Vec.construct N s.heap values = _ at hconstruct
    rw [hconstruct]
    rfl
  | copy j =>
    obtain ⟨w, ys, items, hw, hp, hholds, hlt'⟩ := hinv.exists_vec hallowed
    obtain ⟨h', v', items', hcopy, hholds', hframe⟩ := Vec.copy_spec hN hholds hlt'
    refine ⟨⟨h', Function.update s.vecs i (some v')⟩, ?_, ?_⟩
    · rw [State.step, Creation.apply, hw]
      dsimp only
      rw [hcopy]
      rfl
    · rw [Op.plain, Creation.plain, hp]
      exact hcreated hlt' hholds' hframe
  | buffer k =>
    have hk : k < buffers.length := hallowed
    have hget : buffers[k]? = some (buffers.get ⟨k, hk⟩) := List.getElem?_eq_getElem hk
    have hlt' : (buffers.get ⟨k, hk⟩).length < 2 ^ 31 := by
      rw [Creation.plain, hget] at hlt
      exact hlt
    have hholds := Vec.ofBuffer_holds hN (hinv.buffers k hk) hlt'
    refine ⟨⟨s.heap, Function.update s.vecs i (some (Vec.ofBuffer N (buffers.get ⟨k, hk⟩).length k))⟩,
      ?_, ?_⟩
    · rw [State.step, Creation.apply, hget]
      rfl
    · rw [Op.plain, Creation.plain, hget]
      apply hinv.replace (.inr rfl) (Vec.Kept.refl s.heap (Vec.raw N)).frame hholds hlt'
      · rintro ptr ⟨_, hshape⟩
        cases hshape
      · rintro ptr ⟨_, hshape⟩
        cases hshape
        exact .inr hk

theorem Inv.mutate (hN : N < 2 ^ 31 - 1) (hinv : Inv N buffers s p) {i : ℕ} {m : Mutation T}
    (hallowed : (Op.mutate i m).Allowed buffers p) (hok : s.StepOk N p (.mutate i m)) :
    ∃ s', s.step N buffers (.mutate i m) = .ok s' ∧
      Inv N buffers s' ((Op.mutate i m).plain buffers p) := by
  obtain ⟨xs, hp, hallowed⟩ := hallowed
  obtain ⟨v, xs', items, hv, hp', hholds, hlt⟩ := hinv.exists_vec (by rw [hp]; exact nofun)
  obtain rfl := Option.some.inj (hp'.symm.trans hp)
  obtain ⟨h', v', items', happly, hholds', hframe⟩ :=
    m.apply_spec hN hholds hlt hallowed (hok v xs' hv hp).1 (hok v xs' hv hp).2
  refine ⟨⟨h', Function.update s.vecs i (some v')⟩, ?_, ?_⟩
  · rw [State.step, hv]
    dsimp only
    rw [happly]
    rfl
  · rw [Op.plain, hp]
    exact hinv.replace (.inl hv) hframe hholds' hallowed.1 (fun _ => id) fun _ => .inl

theorem Inv.assignFrom (hN : N < 2 ^ 31 - 1) (hinv : Inv N buffers s p) {i j : ℕ}
    (hallowed : (Op.assignFrom (T := T) i j).Allowed buffers p)
    (hok : s.StepOk N p (.assignFrom i j)) : ∃ s', s.step N buffers (.assignFrom i j) = .ok s' ∧
      Inv N buffers s' ((Op.assignFrom i j).plain buffers p) := by
  obtain ⟨v, xs, items, hv, -, hholds, hlt⟩ := hinv.exists_vec hallowed.1
  obtain ⟨w, ys, items', hw, hp, hholds', hlt'⟩ := hinv.exists_vec hallowed.2
  rw [State.step, hv, hw, Op.plain]
  dsimp only
  by_cases hij : i = j
  · rw [if_pos hij, hij, Function.update_eq_self]
    exact ⟨s, rfl, hinv⟩
  · rw [if_neg hij, hp]
    obtain ⟨h', v', items'', hassign, hholds'', hframe⟩ := Vec.assignFrom_spec hN hholds hlt hholds'
      hlt' (hinv.other hij hv hw) (hok.resolve_left hij v hv)
    rw [hassign]
    exact ⟨_, rfl, hinv.replace (.inl hv) hframe hholds'' hlt' (fun _ => id) fun _ => .inl⟩

theorem Inv.destroy (hinv : Inv N buffers s p) {i : ℕ}
    (hallowed : (Op.destroy (T := T) i).Allowed buffers p) :
    ∃ s', s.step N buffers (.destroy i) = .ok s' ∧
      Inv N buffers s' ((Op.destroy i).plain buffers p) := by
  obtain ⟨v, xs, items, hv, -, hholds, hlt⟩ := hinv.exists_vec hallowed
  obtain ⟨h', hdestroy, hlength, hothers⟩ := Vec.destroy_spec hholds hlt
  have hframe : Vec.Frame s.heap v h' (Vec.raw N) := by
    refine ⟨hlength.ge, fun ptr _ => hothers ptr, ?_, ?_⟩
    · rintro ptr ⟨_, hshape⟩
      cases hshape
    · rintro ptr ⟨_, hshape⟩
      cases hshape
  -- first the storage goes, then the object
  have hempty := hinv.replace (.inl hv) hframe (Vec.raw_holds h') (Nat.two_pow_pos 31) (fun _ => id)
    fun _ => .inl
  have hgone := hempty.remove i
  rw [Function.update_idem, Function.update_idem] at hgone
  refine ⟨_, ?_, hgone⟩
  rw [State.step, hv]
  dsimp only
  rw [hdestroy]
  rfl

theorem Inv.step (hN : N < 2 ^ 31 - 1) (hinv : Inv N buffers s p) {op : Op T}
    (hallowed : op.Allowed buffers p) (hok : s.StepOk N p op) :
    ∃ s', s.step N buffers op = .ok s' ∧ Inv N buffers s' (op.plain buffers p) := by
  cases op with
  | create i c => exact hinv.create hN hallowed
  | mutate i m => exact hinv.mutate hN hallowed hok
  | assignFrom i j => exact hinv.assignFrom hN hallowed hok
  | swap i j =>
    refine ⟨_, rfl, ?_⟩
    rw [Op.plain, ← Equiv.comp_swap_eq_update, ← Equiv.comp_swap_eq_update]
    exact hinv.rename (Equiv.injective _)
  | destroy i => exact hinv.destroy hallowed

/-- A vector that borrows its storage is stopped, and one that is given an element of its own shows
whether it was there. -/
theorem Inv.stepOk (hN : N < 2 ^ 31 - 1) (hinv : Inv N buffers s p) {op : Op T}
    (hallowed : op.Allowed buffers p) {s' : State T} (hs' : s.step N buffers op = .ok s')
    (hgood : Good N buffers s' (op.plain buffers p)) : s.StepOk N p op := by
  cases op with
  | create i c => trivial
  | mutate i m =>
    intro v xs hv hp
    obtain ⟨xs', hp', hallowed⟩ := hallowed
    obtain rfl := Option.some.inj (hp'.symm.trans hp)
    obtain ⟨xs'', items, hp'', hholds, hlt⟩ := hinv.holds i v hv
    obtain rfl := Option.some.inj (hp''.symm.trans hp)
    rw [State.step, hv] at hs'
    dsimp only at hs'
    cases happly : m.apply N s.heap v with
    | error e =>
      rw [happly] at hs'
      cases hs'
    | ok r =>
      obtain ⟨h', v'⟩ := r
      rw [happly] at hs'
      cases hs'
      refine ⟨fun hmine => ?_, ?_⟩
      · obtain ⟨ptr, hborrows⟩ := not_forall_not.mp hmine
        exact m.truncates_of_apply hN hholds hlt hallowed hborrows happly
      · have hcontents := hgood.contents i
        rw [Op.plain, hp] at hcontents
        dsimp only at hcontents
        rw [Function.update_self, Function.update_self] at hcontents
        exact m.steady_of_apply hN hholds hallowed happly (Option.some.inj hcontents)
  | assignFrom i j =>
    by_contra hno
    obtain ⟨hij, hno⟩ := not_or.mp hno
    obtain ⟨v, hno⟩ := not_forall.mp hno
    obtain ⟨hv, hmine⟩ := Classical.not_imp.mp hno
    obtain ⟨ptr, hborrows⟩ := not_forall_not.mp hmine
    obtain ⟨xs, items, -, hholds, hlt⟩ := hinv.holds i v hv
    obtain ⟨w, ys, items', hw, -⟩ := hinv.exists_vec hallowed.2
    rw [State.step, hv, hw] at hs'
    dsimp only at hs'
    rw [if_neg hij] at hs'
    cases hassign : v.assignFrom N s.heap w with
    | error e =>
      rw [hassign] at hs'
      cases hs'
    | ok r => exact Vec.not_assignFrom hholds hlt hborrows r hassign
  | swap i j => trivial
  | destroy i => trivial

/-! ## Runs -/

theorem Inv.goes_iff (hN : N < 2 ^ 31 - 1) (hinv : Inv N buffers s p) (ops : List (Op T)) :
    s.Goes N buffers p ops ↔ s.Meets N buffers p ops := by
  induction ops generalizing s p with
  | nil => exact Iff.rfl
  | cons op ops ih =>
    refine forall_congr' fun hallowed => ?_
    constructor
    · rintro ⟨s', hs', hgood, hgoes⟩
      have hok := hinv.stepOk hN hallowed hs' hgood
      refine ⟨hok, fun s'' hs'' => ?_⟩
      obtain ⟨s₁, hs₁, hinv'⟩ := hinv.step hN hallowed hok
      cases hs₁.symm.trans hs'
      cases hs₁.symm.trans hs''
      exact (ih hinv').mp hgoes
    · rintro ⟨hok, hmeets⟩
      obtain ⟨s', hs', hinv'⟩ := hinv.step hN hallowed hok
      exact ⟨s', hs', hinv'.good, (ih hinv').mpr (hmeets s' hs')⟩

end

/-- A program goes through, shows the contents of plain vectors after every step, and leaves the
bytes of its `ConstBuffer`s alone, exactly when vectors that borrow such bytes are only made
shorter and vectors that are given elements of their own find them where they were. -/
theorem program_goes_iff_meets (N : ℕ) (hN : N < 2 ^ 31 - 1) (buffers : List (List T))
    (ops : List (Op T)) :
    (start buffers).Goes N buffers (fun _ => none) ops ↔
      (start buffers).Meets N buffers (fun _ => none) ops :=
  (inv_start N buffers).goes_iff hN ops

/-- A vector over a buffer, shortened, and a copy that grows onto the heap and repeats an element of
its own. -/
def copyOps : List (Op ℕ) :=
  [.create 0 (.buffer 0), .mutate 0 .popBack, .create 1 (.copy 0), .mutate 1 (.insert 1 (.value 7)),
    .mutate 1 (.pushBack (.own 0)), .swap 0 1, .destroy 1]

theorem goes_iff_meets_copyOps :
    (start [[1, 2, 3]]).Goes 2 [[1, 2, 3]] (fun _ => none) copyOps ↔
      (start [[1, 2, 3]]).Meets 2 [[1, 2, 3]] (fun _ => none) copyOps :=
  program_goes_iff_meets 2 (by decide) [[1, 2, 3]] copyOps

-- the last of three elements is inserted in front of them, after the second one took its place
example : (do
    let r ← Vec.construct 28 [] [1, 2, 3]
    let r ← r.2.insert 28 r.1 0 (.own 2)
    r.2.contents 28 r.1) = .ok [2, 1, 2, 3] := rfl

/-- A vector over a buffer, to which an element is added. -/
theorem not_goes_pushBack : ¬ (start [[1, 2, 3]]).Goes 28 [[1, 2, 3]] (fun _ => none)
    [.create 0 (.buffer 0), .mutate 0 (.pushBack (.value 4))] := by
  intro hgoes
  obtain ⟨s₁, hs₁, -, hgoes⟩ := hgoes ⟨rfl, show 3 < 2 ^ 31 by decide, show 0 < 1 by decide⟩
  cases hs₁
  obtain ⟨s₂, hs₂, -⟩ := hgoes ⟨[1, 2, 3], rfl, show 4 < 2 ^ 31 by decide, trivial⟩
  cases hs₂

end Prevector
