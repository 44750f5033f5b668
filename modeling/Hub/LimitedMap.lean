/-
# Limited maps

`limitedmap` (`libs/server/limitedmap.h`): a map and a multimap of iterators into it, which mirror each
other.  An iterator is the number of the element that it points to; no number is used twice, so that an
iterator to an erased element points to nothing.

`insert` makes room before the new element is in `rmap`: it is one of the old elements that goes, whatever
the new one's value is (`isHighest_iff`).

`goes_iff_careful` : in every run, the two maps mirror each other and no erased element is referenced; and
the highest values are kept exactly when nothing below all of a full map is inserted.
-/
import Hub.Multimap
import Mathlib.Data.List.Nodup
import Mathlib.Data.List.Perm.Subperm
import Mathlib.Data.PNat.Basic

/-- An element of `map`. -/
structure LimitedMap.Node (K V : Type*) where
  id : ℕ
  first : K
  second : V
  deriving DecidableEq

/-- `limitedmap`, with the number of the next element. -/
structure LimitedMap (K V : Type*) where
  map : List (LimitedMap.Node K V)
  rmap : List (V × ℕ)
  nMaxSize : ℕ
  next : ℕ
  deriving DecidableEq

namespace LimitedMap

/-- What goes wrong. -/
inductive Fault where
  /-- `assert(s > 0)` fails. -/
  | noSize
  /-- `assert(0)` is reached. -/
  | unreachable
  /-- `rmap.begin()` is `rmap.end()`. -/
  | endReferenced
  /-- An iterator to an erased element is used. -/
  | erasedReferenced
  deriving DecidableEq, Repr

variable {K V : Type*} [DecidableEq K] [LinearOrder V]

/-! ## The code -/

/-- `limitedmap(nMaxSizeIn)`. -/
def empty (nMaxSizeIn : ℕ+) : LimitedMap K V := ⟨[], [], nMaxSizeIn, 0⟩

/-- `size`. -/
def size (m : LimitedMap K V) : ℕ := m.map.length

/-- `map.erase(rmap.begin()->second)` and `rmap.erase(rmap.begin())`. -/
def eraseLowest (m : LimitedMap K V) : Except Fault (LimitedMap K V) :=
  match m.rmap with
  | [] => .error .endReferenced
  | e :: rmap =>
    if m.map.any (·.id == e.2) then
      .ok { m with map := m.map.filter (·.id != e.2), rmap := rmap }
    else .error .erasedReferenced

/-- `map.insert(x)`, for a key without an element. -/
def emplace (m : LimitedMap K V) (k : K) (v : V) : LimitedMap K V :=
  { m with map := m.map ++ [⟨m.next, k, v⟩], next := m.next + 1 }

/-- `insert`. -/
def insert (m : LimitedMap K V) (k : K) (v : V) : Except Fault (LimitedMap K V) :=
  if m.map.any (·.first == k) then .ok m
  else do
    let m' ←
      if (m.emplace k v).size > m.nMaxSize then (m.emplace k v).eraseLowest
      else pure (m.emplace k v)
    pure { m' with rmap := Multimap.insert v m.next m'.rmap }

/-- `erase`. -/
def erase (m : LimitedMap K V) (k : K) : Except Fault (LimitedMap K V) :=
  match m.map.find? (·.first == k) with
  | none => .ok m
  | some itTarget =>
    match Multimap.eraseIn (· == itTarget.id) itTarget.second m.rmap with
    | none => .error .unreachable
    | some rmap => .ok { m with map := m.map.filter (·.id != itTarget.id), rmap := rmap }

/-- `update`, with the key that the iterator points to. -/
def update (m : LimitedMap K V) (k : K) (v : V) : Except Fault (LimitedMap K V) :=
  match m.map.find? (·.first == k) with
  | none => .ok m
  | some itTarget =>
    match Multimap.eraseIn (· == itTarget.id) itTarget.second m.rmap with
    | none => .error .unreachable
    | some rmap => .ok { m with
        map := m.map.map fun n => if n.id = itTarget.id then { n with second := v } else n
        rmap := Multimap.insert v itTarget.id rmap }

omit [DecidableEq K] [LinearOrder V] in
theorem size_emplace (m : LimitedMap K V) (k : K) (v : V) : (m.emplace k v).size = m.size + 1 :=
  List.length_append

omit [DecidableEq K] [LinearOrder V] in
theorem length_eraseLowest {m m' : LimitedMap K V} (h : m.eraseLowest = .ok m') :
    m'.map.length < m.map.length := by
  unfold eraseLowest at h
  split at h
  · cases h
  · rename_i e rmap _
    split_ifs at h with hany
    cases h
    obtain ⟨n, hn, hid⟩ := List.any_eq_true.mp hany
    apply List.length_filter_lt_length_iff_exists.mpr
    exact ⟨n, hn, by simpa using hid⟩

/-- The loop of `max_size`. -/
def shrink (m : LimitedMap K V) (s : ℕ) : Except Fault (LimitedMap K V) :=
  if m.size > s then
    match _h : m.eraseLowest with
    | .error e => .error e
    | .ok m' => shrink m' s
  else .ok m
termination_by m.map.length
decreasing_by exact length_eraseLowest _h

/-- `max_size(s)`. -/
def maxSize (m : LimitedMap K V) (s : ℕ) : Except Fault (LimitedMap K V) :=
  if s = 0 then .error .noSize
  else do
    let m' ← m.shrink s
    pure { m' with nMaxSize := s }

/-- The operations. -/
inductive Op (K V : Type*) where
  | insert (k : K) (v : V)
  | erase (k : K)
  | update (k : K) (v : V)
  | maxSize (s : ℕ+)

/-- An operation. -/
def step (m : LimitedMap K V) : Op K V → Except Fault (LimitedMap K V)
  | .insert k v => m.insert k v
  | .erase k => m.erase k
  | .update k v => m.update k v
  | .maxSize s => m.maxSize s

/-! ## What is promised -/

/-- `rmap` holds one pair for each element of `map`, and nothing else. -/
structure Mirrors (m : LimitedMap K V) : Prop where
  pairs : m.rmap.Perm (m.map.map fun n => (n.second, n.id))
  distinct : (m.map.map Node.id).Nodup
  keys : (m.map.map Node.first).Nodup

/-- The elements, with their values. -/
def elements (m : LimitedMap K V) : List (K × V) := m.map.map fun n => (n.first, n.second)

/-- `kept` are the `n` elements of `all` with the highest values. -/
structure IsHighest (n : ℕ) (all kept : List (K × V)) : Prop where
  length : kept.length = n
  subperm : kept.Subperm all
  le : ∀ e ∈ all, e ∉ kept → ∀ e' ∈ kept, e.2 ≤ e'.2

/-- There is no element for the key, and no room for one. -/
def Full (m : LimitedMap K V) (k : K) : Prop := (∀ n ∈ m.map, n.first ≠ k) ∧ m.nMaxSize ≤ m.size

/-- When an insertion evicts, the highest values of the old elements and the new one are kept. -/
def KeepsHighest (m : LimitedMap K V) (op : Op K V) (m' : LimitedMap K V) : Prop :=
  ∀ k v, op = .insert k v → m.Full k → IsHighest m.nMaxSize ((k, v) :: m.elements) m'.elements

/-- What the class promises of a sequence of operations: no failure, the mirror and the size in every
state, and the highest values at every insertion that evicts. -/
def Goes : LimitedMap K V → List (Op K V) → Prop
  | m, [] => m.Mirrors ∧ m.size ≤ m.nMaxSize
  | m, op :: ops => (m.Mirrors ∧ m.size ≤ m.nMaxSize) ∧
      ∃ m', m.step op = .ok m' ∧ m.KeepsHighest op m' ∧ Goes m' ops

/-- An element that goes into a full map is not below all elements that are there. -/
def Careful (m : LimitedMap K V) (op : Op K V) : Prop :=
  ∀ k v, op = .insert k v → m.Full k → ∃ n ∈ m.map, n.second ≤ v

/-- Every operation is careful in the state in which it comes. -/
def Meets : LimitedMap K V → List (Op K V) → Prop
  | _, [] => True
  | m, op :: ops => m.Careful op ∧ ∀ m', m.step op = .ok m' → Meets m' ops

/-! ## The invariant -/

/-- What holds between the operations, but for the size. -/
structure Inv (m : LimitedMap K V) : Prop extends Mirrors m where
  fresh : ∀ n ∈ m.map, n.id < m.next
  sorted : Multimap.Sorted m.rmap

variable {m : LimitedMap K V} {k : K} {v : V}

section Elements

variable {K V : Type*}

/-- An element is taken out by its number. -/
theorem perm_cons_filter {map : List (Node K V)} (h : (map.map Node.id).Nodup) {t : Node K V}
    (ht : t ∈ map) : map.Perm (t :: map.filter (·.id != t.id)) := by
  induction map with
  | nil => cases ht
  | cons n map ih =>
    rw [List.map_cons, List.nodup_cons] at h
    rcases List.mem_cons.mp ht with rfl | ht
    · rw [List.filter_cons_of_neg (by simp), List.filter_eq_self.mpr]
      intro n hn
      rw [bne_iff_ne]
      intro heq
      exact h.1 (heq ▸ List.mem_map_of_mem hn)
    · have hne : n.id ≠ t.id := by
        intro heq
        exact h.1 (heq ▸ List.mem_map_of_mem ht)
      rw [List.filter_cons_of_pos (by simpa using hne)]
      exact ((ih h.2 ht).cons n).trans (List.Perm.swap t n _)

end Elements

omit [DecidableEq K] in
theorem Inv.mem_rmap (h : m.Inv) {t : Node K V} (ht : t ∈ m.map) : (t.second, t.id) ∈ m.rmap :=
  h.pairs.mem_iff.mpr (List.mem_map_of_mem ht)

omit [DecidableEq K] in
/-- An element is taken out of both maps. -/
theorem Inv.drop (h : m.Inv) {t : Node K V} (ht : t ∈ m.map) {rmap : List (V × ℕ)}
    (hrmap : m.rmap.Perm ((t.second, t.id) :: rmap)) (hsorted : Multimap.Sorted rmap) :
    Inv { m with map := m.map.filter (·.id != t.id), rmap := rmap } where
  pairs := by
    have hmap := (perm_cons_filter h.distinct ht).map fun n => (n.second, n.id)
    exact (hrmap.symm.trans (h.pairs.trans hmap)).cons_inv
  distinct := h.distinct.sublist (List.filter_sublist.map Node.id)
  keys := h.keys.sublist (List.filter_sublist.map Node.first)
  fresh := fun n hn => h.fresh n (List.mem_of_mem_filter hn)
  sorted := hsorted

omit [DecidableEq K] in
/-- A new element is added to both maps. -/
theorem Inv.add (h : m.Inv) (hk : ∀ n ∈ m.map, n.first ≠ k) (v : V) :
    Inv { m with
      map := m.map ++ [⟨m.next, k, v⟩]
      rmap := Multimap.insert v m.next m.rmap
      next := m.next + 1 } where
  pairs := by
    apply (Multimap.perm_insert v m.next m.rmap).trans
    apply (h.pairs.cons _).trans
    rw [List.map_append]
    exact (List.perm_append_singleton _ _).symm
  distinct := by
    rw [List.map_append, List.nodup_append']
    refine ⟨h.distinct, List.nodup_singleton _, ?_⟩
    rintro id hid hnew
    obtain ⟨n, hn, rfl⟩ := List.mem_map.mp hid
    exact absurd (h.fresh n hn) (by rw [List.mem_singleton.mp hnew]; exact lt_irrefl _)
  keys := by
    rw [List.map_append, List.nodup_append']
    refine ⟨h.keys, List.nodup_singleton _, ?_⟩
    rintro key hkey hnew
    obtain ⟨n, hn, rfl⟩ := List.mem_map.mp hkey
    exact hk n hn (List.mem_singleton.mp hnew)
  fresh := by
    intro n hn
    rcases List.mem_append.mp hn with hn | hn
    · exact Nat.lt_succ_of_lt (h.fresh n hn)
    · rw [List.mem_singleton.mp hn]
      exact Nat.lt_succ_self _
  sorted := Multimap.sorted_insert h.sorted

omit [DecidableEq K] in
/-- **The lowest element** is erased; no iterator points to nothing. -/
theorem Inv.eraseLowest (h : m.Inv) (hpos : 0 < m.size) :
    ∃ t ∈ m.map, ∃ rmap, m.eraseLowest =
        .ok { m with map := m.map.filter (·.id != t.id), rmap := rmap } ∧
      Inv { m with map := m.map.filter (·.id != t.id), rmap := rmap } ∧
      (∀ n ∈ m.map, t.second ≤ n.second) ∧ ∃ e, m.rmap = e :: rmap ∧ e.2 = t.id := by
  cases hrmap : m.rmap with
  | nil =>
    have hlen := h.pairs.length_eq
    rw [hrmap, List.length_map, List.length_nil] at hlen
    rw [size, ← hlen] at hpos
    exact absurd hpos (lt_irrefl 0)
  | cons e rmap =>
    have he : e ∈ m.rmap := by
      rw [hrmap]
      exact List.mem_cons_self
    obtain ⟨t, ht, rfl⟩ := List.mem_map.mp (h.pairs.mem_iff.mp he)
    have hsorted := h.sorted
    rw [hrmap] at hsorted
    refine ⟨t, ht, rmap, ?_, ?_, ?_, _, rfl, rfl⟩
    · rw [LimitedMap.eraseLowest, hrmap]
      have hany : m.map.any (fun n => n.id == t.id) = true :=
        List.any_eq_true.mpr ⟨t, ht, beq_self_eq_true _⟩
      exact if_pos hany
    · exact h.drop ht (List.Perm.of_eq hrmap) hsorted.tail
    · intro n hn
      have hmem := h.mem_rmap hn
      rw [hrmap] at hmem
      exact hsorted.head_le _ hmem

/-! ## The operations -/

omit [DecidableEq K] in
theorem size_filter (h : m.Inv) {t : Node K V} (ht : t ∈ m.map) :
    (m.map.filter (·.id != t.id)).length + 1 = m.size :=
  (perm_cons_filter h.distinct ht).length_eq.symm

omit [LinearOrder V] in
theorem not_any_first (hk : ∀ n ∈ m.map, n.first ≠ k) :
    ¬ m.map.any (fun n => n.first == k) = true := by
  intro hany
  obtain ⟨n, hn, heq⟩ := List.any_eq_true.mp hany
  exact hk n hn (beq_iff_eq.mp heq)

/-- An insertion into a map with room. -/
theorem insert_of_room (hk : ∀ n ∈ m.map, n.first ≠ k) (hroom : m.size < m.nMaxSize) (v : V) :
    m.insert k v = .ok { m with
      map := m.map ++ [⟨m.next, k, v⟩]
      rmap := Multimap.insert v m.next m.rmap
      next := m.next + 1 } := by
  have hsize : ¬ (m.emplace k v).size > m.nMaxSize := by
    rw [size_emplace]
    exact not_lt.mpr hroom
  rw [insert, if_neg (not_any_first hk), if_neg hsize]
  rfl

/-- An insertion into a full map: the lowest of the old elements goes. -/
theorem insert_of_full (h : m.Inv) (hfull : m.Full k) (hpos : 0 < m.size) (v : V) :
    ∃ t ∈ m.map, ∃ rmap,
      m.insert k v = .ok { m with
        map := m.map.filter (·.id != t.id) ++ [⟨m.next, k, v⟩]
        rmap := Multimap.insert v m.next rmap
        next := m.next + 1 } ∧
      Inv { m with map := m.map.filter (·.id != t.id), rmap := rmap } ∧
      ∀ n ∈ m.map, t.second ≤ n.second := by
  obtain ⟨t, ht, rmap, -, hinv, hlow, e, hrmap, hid⟩ := h.eraseLowest hpos
  refine ⟨t, ht, rmap, ?_, hinv, hlow⟩
  have hsize : (m.emplace k v).size > m.nMaxSize := by
    rw [size_emplace]
    exact Nat.lt_succ_of_le hfull.2
  have hany : (m.map ++ [(⟨m.next, k, v⟩ : Node K V)]).any (fun n => n.id == t.id) = true :=
    List.any_eq_true.mpr ⟨t, List.mem_append_left _ ht, beq_self_eq_true _⟩
  have hnew : [(⟨m.next, k, v⟩ : Node K V)].filter (·.id != t.id) = [⟨m.next, k, v⟩] := by
    apply List.filter_eq_self.mpr
    intro n hn
    rw [List.mem_singleton.mp hn, bne_iff_ne]
    exact (h.fresh t ht).ne'
  have herase : (m.emplace k v).eraseLowest = .ok { m.emplace k v with
      map := m.map.filter (·.id != t.id) ++ [⟨m.next, k, v⟩]
      rmap := rmap } := by
    rw [LimitedMap.eraseLowest]
    simp only [emplace, hrmap, hid]
    rw [if_pos hany, List.filter_append, hnew]
  rw [insert, if_neg (not_any_first hfull.1), if_pos hsize, herase]
  rfl

omit [DecidableEq K] in
/-- The iterator of an element is found in `rmap`. -/
theorem Inv.eraseIn (h : m.Inv) {t : Node K V} (ht : t ∈ m.map) :
    ∃ rmap, Multimap.eraseIn (· == t.id) t.second m.rmap = some rmap ∧
      m.rmap.Perm ((t.second, t.id) :: rmap) ∧ Multimap.Sorted rmap := by
  obtain ⟨rmap, id, hrun, hid, hperm, hsorted⟩ := Multimap.eraseIn_of_mem
    (p := (· == t.id)) h.sorted (h.mem_rmap ht) (beq_self_eq_true _)
  rw [beq_iff_eq.mp hid] at hperm
  exact ⟨rmap, hrun, hperm, hsorted⟩

/-- **Erasing** does not reach the assertion. -/
theorem Inv.erase (h : m.Inv) (k : K) :
    ∃ m', m.erase k = .ok m' ∧ m'.Inv ∧ m'.size ≤ m.size ∧ m'.nMaxSize = m.nMaxSize := by
  rw [LimitedMap.erase]
  cases hfind : m.map.find? (·.first == k) with
  | none => exact ⟨m, rfl, h, le_refl _, rfl⟩
  | some t =>
    have ht := List.mem_of_find?_eq_some hfind
    obtain ⟨rmap, hrun, hperm, hsorted⟩ := h.eraseIn ht
    simp only [hrun]
    exact ⟨_, rfl, h.drop ht hperm hsorted, List.length_filter_le _ _, rfl⟩

omit [DecidableEq K] in
/-- An element that gets another value, in both maps. -/
theorem Inv.set (h : m.Inv) {t : Node K V} (ht : t ∈ m.map) {rmap : List (V × ℕ)}
    (hrmap : m.rmap.Perm ((t.second, t.id) :: rmap)) (hsorted : Multimap.Sorted rmap) (v : V) :
    Inv { m with
      map := m.map.map fun n => if n.id = t.id then { n with second := v } else n
      rmap := Multimap.insert v t.id rmap } := by
  have hdrop := (h.drop ht hrmap hsorted).pairs
  have hids : (m.map.map fun n => if n.id = t.id then { n with second := v } else n).map Node.id =
      m.map.map Node.id := by
    rw [List.map_map]
    apply List.map_congr_left
    intro n _
    simp only [Function.comp]
    split_ifs
    · rfl
    · rfl
  have hfirsts : (m.map.map fun n => if n.id = t.id then { n with second := v } else n).map
      Node.first = m.map.map Node.first := by
    rw [List.map_map]
    apply List.map_congr_left
    intro n _
    simp only [Function.comp]
    split_ifs
    · rfl
    · rfl
  constructor
  · constructor
    · -- the element that is set, and the others, which stay
      have hothers : (m.map.filter (·.id != t.id)).map
          (fun n => if n.id = t.id then { n with second := v } else n) =
          m.map.filter (·.id != t.id) := by
        conv_rhs => rw [← List.map_id (m.map.filter (·.id != t.id))]
        apply List.map_congr_left
        intro n hn
        rw [if_neg (bne_iff_ne.mp (List.mem_filter.mp hn).2)]
        rfl
      have hmap := (perm_cons_filter h.distinct ht).map
        fun n => if n.id = t.id then { n with second := v } else n
      rw [List.map_cons, if_pos rfl, hothers] at hmap
      have hpairs := hmap.map fun n : Node K V => (n.second, n.id)
      exact (Multimap.perm_insert v t.id rmap).trans ((hdrop.cons (v, t.id)).trans hpairs.symm)
    · rw [hids]
      exact h.distinct
    · rw [hfirsts]
      exact h.keys
  · intro n hn
    have hmem : n.id ∈ m.map.map Node.id := hids ▸ List.mem_map_of_mem hn
    obtain ⟨n', hn', heq⟩ := List.mem_map.mp hmem
    rw [← heq]
    exact h.fresh n' hn'
  · exact Multimap.sorted_insert hsorted

/-- **Updating** does not reach the assertion. -/
theorem Inv.update (h : m.Inv) (k : K) (v : V) :
    ∃ m', m.update k v = .ok m' ∧ m'.Inv ∧ m'.size = m.size ∧ m'.nMaxSize = m.nMaxSize := by
  rw [LimitedMap.update]
  cases hfind : m.map.find? (·.first == k) with
  | none => exact ⟨m, rfl, h, rfl, rfl⟩
  | some t =>
    have ht := List.mem_of_find?_eq_some hfind
    obtain ⟨rmap, hrun, hperm, hsorted⟩ := h.eraseIn ht
    simp only [hrun]
    exact ⟨_, rfl, h.set ht hperm hsorted v, List.length_map _, rfl⟩

omit [DecidableEq K] in
/-- **The loop of `max_size`** ends with the size that is asked for. -/
theorem Inv.shrink (h : m.Inv) (s : ℕ) :
    ∃ m', m.shrink s = .ok m' ∧ m'.Inv ∧ m'.size ≤ s := by
  induction hlen : m.map.length using Nat.strongRecOn generalizing m with
  | ind len ih =>
    by_cases hmore : m.size > s
    · obtain ⟨t, ht, rmap, hrun, hinv, -, -⟩ := h.eraseLowest (Nat.zero_lt_of_lt hmore)
      have hless := length_eraseLowest hrun
      rw [hlen] at hless
      obtain ⟨m', hrun', hinv', hsize⟩ := ih _ hless hinv rfl
      refine ⟨m', ?_, hinv', hsize⟩
      rw [LimitedMap.shrink, if_pos hmore]
      split
      · rename_i e he
        rw [hrun] at he
        cases he
      · rename_i m₁ hm₁
        rw [hrun] at hm₁
        cases hm₁
        exact hrun'
    · refine ⟨m, ?_, h, not_lt.mp hmore⟩
      rw [LimitedMap.shrink, if_neg hmore]

/-! ## Runs -/

/-- The invariant with the size. -/
structure Sound (m : LimitedMap K V) : Prop extends Inv m where
  size_le : m.size ≤ m.nMaxSize
  pos : 0 < m.nMaxSize

omit [DecidableEq K] in
theorem sound_empty (nMaxSizeIn : ℕ+) : (empty nMaxSizeIn : LimitedMap K V).Sound where
  pairs := List.Perm.refl _
  distinct := List.nodup_nil
  keys := List.nodup_nil
  fresh := by
    rintro n ⟨⟩
  sorted := List.Pairwise.nil
  size_le := Nat.zero_le _
  pos := nMaxSizeIn.pos

omit [DecidableEq K] in
/-- The elements that are kept when the lowest one goes. -/
theorem isHighest_iff (h : m.Inv) {t : Node K V} (ht : t ∈ m.map)
    (hlow : ∀ n ∈ m.map, t.second ≤ n.second) (hk : ∀ n ∈ m.map, n.first ≠ k)
    (hsize : m.size = m.nMaxSize) {m' : LimitedMap K V} {id : ℕ}
    (hmap : m'.map = m.map.filter (·.id != t.id) ++ [⟨id, k, v⟩]) :
    IsHighest m.nMaxSize ((k, v) :: m.elements) m'.elements ↔ ∃ n ∈ m.map, n.second ≤ v := by
  have hperm : m.elements.Perm
      ((t.first, t.second) :: (m.map.filter (·.id != t.id)).map fun n => (n.first, n.second)) :=
    (perm_cons_filter h.distinct ht).map fun n : Node K V => (n.first, n.second)
  have hkept : m'.elements.Perm
      ((k, v) :: (m.map.filter (·.id != t.id)).map fun n => (n.first, n.second)) := by
    rw [elements, hmap, List.map_append]
    exact List.perm_append_singleton _ _
  -- the lowest element is not among those that are kept
  have hgone : (t.first, t.second) ∉ m'.elements := by
    intro hmem
    rcases List.mem_cons.mp (hkept.mem_iff.mp hmem) with heq | hmem
    · exact hk t ht (congrArg Prod.fst heq)
    · obtain ⟨n, hn, heq⟩ := List.mem_map.mp hmem
      have hn' := List.mem_filter.mp hn
      have hsame : n = t :=
        List.inj_on_of_nodup_map h.keys hn'.1 ht (congrArg Prod.fst heq)
      exact bne_iff_ne.mp hn'.2 (congrArg Node.id hsame)
  constructor
  · intro hhigh
    exact ⟨t, ht, hhigh.le _ (List.mem_cons_of_mem _ (List.mem_map_of_mem ht)) hgone (k, v)
      (hkept.mem_iff.mpr List.mem_cons_self)⟩
  · rintro ⟨n, hn, hle⟩
    have htv : t.second ≤ v := le_trans (hlow n hn) hle
    constructor
    · rw [hkept.length_eq, List.length_cons, List.length_map, size_filter h ht, hsize]
    · apply hkept.subperm.trans
      apply List.Sublist.subperm
      exact (List.filter_sublist.map fun n : Node K V => (n.first, n.second)).cons_cons _
    · intro e he hne e' he'
      have heq : e = (t.first, t.second) := by
        rcases List.mem_cons.mp he with rfl | he
        · exact absurd (hkept.mem_iff.mpr List.mem_cons_self) hne
        · rcases List.mem_cons.mp (hperm.mem_iff.mp he) with rfl | he
          · rfl
          · exact absurd (hkept.mem_iff.mpr (List.mem_cons_of_mem _ he)) hne
      rw [heq]
      rcases List.mem_cons.mp (hkept.mem_iff.mp he') with rfl | he'
      · exact htv
      · obtain ⟨n', hn', rfl⟩ := List.mem_map.mp he'
        exact hlow n' (List.mem_of_mem_filter hn')

/-- **One operation** does not fail, and keeps the invariant; and it keeps the highest values exactly
when it is careful. -/
theorem Sound.step (h : m.Sound) (op : Op K V) :
    ∃ m', m.step op = .ok m' ∧ m'.Sound ∧ (m.KeepsHighest op m' ↔ m.Careful op) := by
  have hother : ∀ {op : Op K V} {m' : LimitedMap K V}, (∀ k v, op ≠ .insert k v) →
      (m.KeepsHighest op m' ↔ m.Careful op) := by
    intro op m' hne
    constructor
    · intro _ k v heq
      exact absurd heq (hne k v)
    · intro _ k v heq
      exact absurd heq (hne k v)
  cases op with
  | insert k v =>
    by_cases hk : ∀ n ∈ m.map, n.first ≠ k
    · by_cases hroom : m.size < m.nMaxSize
      · -- there is room
        have hnot : ¬ m.Full k := fun hfull => absurd hroom (not_lt.mpr hfull.2)
        refine ⟨_, insert_of_room hk hroom v, ⟨h.toInv.add hk v, ?_, h.pos⟩, ?_⟩
        · show (m.emplace k v).size ≤ m.nMaxSize
          rw [size_emplace]
          exact hroom
        · constructor
          · rintro _ _ _ ⟨⟩ hfull
            exact absurd hfull hnot
          · rintro _ _ _ ⟨⟩ hfull
            exact absurd hfull hnot
      · -- the lowest of the old elements goes
        have hfull : m.Full k := ⟨hk, not_lt.mp hroom⟩
        have hsize : m.size = m.nMaxSize := le_antisymm h.size_le hfull.2
        obtain ⟨t, ht, rmap, hrun, hinv, hlow⟩ :=
          insert_of_full h.toInv hfull (by rw [hsize]; exact h.pos) v
        have hfilter := size_filter h.toInv ht
        refine ⟨_, hrun, ⟨hinv.add ?_ v, ?_, h.pos⟩, ?_⟩
        · intro n hn
          exact hk n (List.mem_of_mem_filter hn)
        · show (m.map.filter (·.id != t.id) ++ [(⟨m.next, k, v⟩ : Node K V)]).length ≤ m.nMaxSize
          rw [List.length_append, List.length_singleton]
          omega
        · constructor
          · rintro hkeeps _ _ ⟨⟩ hfull
            exact (isHighest_iff h.toInv ht hlow hk hsize rfl).mp (hkeeps k v rfl hfull)
          · rintro hcareful _ _ ⟨⟩ hfull
            exact (isHighest_iff h.toInv ht hlow hk hsize rfl).mpr (hcareful k v rfl hfull)
    · -- the key is there
      have hany : m.map.any (fun n => n.first == k) = true := by
        by_contra hnone
        apply hk
        intro n hn heq
        exact hnone (List.any_eq_true.mpr ⟨n, hn, beq_iff_eq.mpr heq⟩)
      refine ⟨m, if_pos hany, h, ?_⟩
      constructor
      · rintro _ _ _ ⟨⟩ hfull
        exact absurd hfull.1 hk
      · rintro _ _ _ ⟨⟩ hfull
        exact absurd hfull.1 hk
  | erase k =>
    obtain ⟨m', hrun, hinv, hsize, hmax⟩ := h.toInv.erase k
    refine ⟨m', hrun, ⟨hinv, ?_, ?_⟩, hother (by rintro _ _ ⟨⟩)⟩
    · rw [hmax]
      exact le_trans hsize h.size_le
    · rw [hmax]
      exact h.pos
  | update k v =>
    obtain ⟨m', hrun, hinv, hsize, hmax⟩ := h.toInv.update k v
    refine ⟨m', hrun, ⟨hinv, ?_, ?_⟩, hother (by rintro _ _ ⟨⟩)⟩
    · rw [hmax, hsize]
      exact h.size_le
    · rw [hmax]
      exact h.pos
  | maxSize s =>
    obtain ⟨m', hrun, hinv, hsize⟩ := h.toInv.shrink s
    refine ⟨{ m' with nMaxSize := s }, ?_, ⟨⟨⟨hinv.pairs, hinv.distinct, hinv.keys⟩, hinv.fresh,
      hinv.sorted⟩, hsize, s.pos⟩, hother (by rintro _ _ ⟨⟩)⟩
    show m.maxSize s = _
    rw [maxSize, if_neg s.ne_zero, hrun]
    rfl

/-- A run from a sound map. -/
theorem Sound.goes_iff (h : m.Sound) (ops : List (Op K V)) : m.Goes ops ↔ m.Meets ops := by
  induction ops generalizing m with
  | nil => exact ⟨fun _ => trivial, fun _ => ⟨h.toMirrors, h.size_le⟩⟩
  | cons op ops ih =>
    obtain ⟨m', hrun, hsound, hkeeps⟩ := h.step op
    constructor
    · rintro ⟨-, m₁, hrun₁, hkeeps₁, hgoes⟩
      rw [hrun] at hrun₁
      cases hrun₁
      refine ⟨hkeeps.mp hkeeps₁, ?_⟩
      intro m₂ hrun₂
      rw [hrun] at hrun₂
      cases hrun₂
      exact (ih hsound).mp hgoes
    · rintro ⟨hcareful, hmeets⟩
      exact ⟨⟨h.toMirrors, h.size_le⟩, m', hrun, hkeeps.mpr hcareful,
        (ih hsound).mpr (hmeets m' hrun)⟩

/-- **Every sequence of operations** goes as the class promises, exactly when no element below all
elements of a full map is inserted. -/
theorem goes_iff_careful (nMaxSizeIn : ℕ+) (ops : List (Op K V)) :
    (empty nMaxSizeIn).Goes ops ↔ (empty nMaxSizeIn).Meets ops :=
  (sound_empty nMaxSizeIn).goes_iff ops

/-- **A run without the highest values**: whatever is inserted, nothing fails, and the two maps mirror
each other. -/
theorem Sound.always (h : m.Sound) (ops : List (Op K V)) :
    ∃ m', ops.foldlM LimitedMap.step m = .ok m' ∧ m'.Sound := by
  induction ops generalizing m with
  | nil => exact ⟨m, rfl, h⟩
  | cons op ops ih =>
    obtain ⟨m₁, hrun, hsound, -⟩ := h.step op
    obtain ⟨m', hrun', hsound'⟩ := ih hsound
    refine ⟨m', ?_, hsound'⟩
    rw [List.foldlM_cons, hrun]
    exact hrun'

/-- One element of the value 5, and room for one; an element of the value 1 takes its place. -/
theorem not_goes_lower : ¬ (empty 1 : LimitedMap ℕ ℕ).Goes [.insert 0 5, .insert 1 1] := by
  rintro ⟨-, m₁, hrun, -, -, m₂, hrun₂, hkeeps, -⟩
  cases hrun
  cases hrun₂
  have hfull : LimitedMap.Full (⟨[⟨0, 0, 5⟩], [(5, 0)], 1, 1⟩ : LimitedMap ℕ ℕ) 1 := by
    constructor
    · decide
    · decide
  have hle := (hkeeps 1 1 rfl hfull).le (0, 5) (by decide) (by decide) (1, 1) (by decide)
  exact absurd hle (by decide)

end LimitedMap
