/-
# Rolling Bloom filters

`CRollingBloomFilter` (`libs/server/bloom.cpp`): two filters that every key goes into and that are
cleared in turns, so that one of them has the last `nElements` keys.  Each filter has exactly the
keys that came in after it was last cleared (`Holds`), and how many these are follows from the
number of insertions (`Tracks`).

`nElements * 2` is taken modulo `2 ^ 32`.  The filters remember the last `nElements` keys if that
does not wrap, and forget some of them if it does (`remembers_iff`).
-/
import Hub.BloomFilter
import Mathlib

namespace Bloom

/-- `CRollingBloomFilter`. -/
structure CRollingBloomFilter where
  nBloomSize : UInt32
  nInsertions : UInt32
  b1 : CBloomFilter
  b2 : CBloomFilter

/-- The constructor of the two filters; their sizes come out of floating-point formulas. -/
def emptyFilter (length : ℕ) (nHashFuncs nTweak : UInt32) : CBloomFilter :=
  ⟨List.replicate length 0, false, true, nHashFuncs, nTweak, 0⟩

/-- `GetRand` of the largest `unsigned int`. -/
abbrev Rand := Fin 4294967295

def Rand.tweak (rand : Rand) : UInt32 := UInt32.ofNat rand.val

namespace CRollingBloomFilter

/-- `reset`. -/
def reset (r : CRollingBloomFilter) (rand : Rand) : CRollingBloomFilter :=
  { r with b1 := r.b1.reset rand.tweak, b2 := r.b2.reset rand.tweak, nInsertions := 0 }

/-- The constructor. -/
def construct (nElements : UInt32) (length : ℕ) (nHashFuncs : UInt32) (rand : Rand) :
    CRollingBloomFilter :=
  reset ⟨nElements * 2, 0, emptyFilter length nHashFuncs 0, emptyFilter length nHashFuncs 0⟩ rand

/-- What `insert` clears. -/
def stagger (r : CRollingBloomFilter) : CRollingBloomFilter :=
  if r.nInsertions = 0 then { r with b1 := r.b1.clear }
  else if r.nInsertions = r.nBloomSize / 2 then { r with b2 := r.b2.clear }
  else r

/-- `insert`. -/
def insert (r : CRollingBloomFilter) (vKey : List UInt8) : Option CRollingBloomFilter := do
  let b1 ← r.stagger.b1.insert vKey
  let b2 ← r.stagger.b2.insert vKey
  let nInsertions := r.nInsertions + 1
  some ⟨r.nBloomSize, if nInsertions = r.nBloomSize then 0 else nInsertions, b1, b2⟩

/-- `contains`. -/
def contains (r : CRollingBloomFilter) (vKey : List UInt8) : Option Bool :=
  if r.nInsertions < r.nBloomSize / 2 then r.b2.contains vKey else r.b1.contains vKey

/-- The calls that change a rolling filter. -/
inductive Call where
  | insert (vKey : List UInt8)
  | reset (rand : Rand)

def step (r : CRollingBloomFilter) : Call → Option CRollingBloomFilter
  | .insert vKey => r.insert vKey
  | .reset rand => some (r.reset rand)

def run (r : CRollingBloomFilter) (calls : List Call) : Option CRollingBloomFilter :=
  calls.foldlM step r

end CRollingBloomFilter

/-- The keys inserted since the last reset, the latest first. -/
def recentStep (keys : List (List UInt8)) : CRollingBloomFilter.Call → List (List UInt8)
  | .insert vKey => vKey :: keys
  | .reset _ => []

def recent (calls : List CRollingBloomFilter.Call) : List (List UInt8) :=
  calls.foldl recentStep []

/-! ## Bits that come in -/

theorem bitMask_and_bitMask {i j : ℕ} (h : bitMask i &&& bitMask j ≠ 0) : i % 8 = j % 8 := by
  have hall : ∀ a b : Fin 8, (1 <<< UInt8.ofNat a.val : UInt8) &&& 1 <<< UInt8.ofNat b.val ≠ 0 →
      a.val = b.val := by decide
  exact hall ⟨i % 8, Nat.mod_lt _ (by omega)⟩ ⟨j % 8, Nat.mod_lt _ (by omega)⟩ h

/-- Setting one bit sets no other. -/
theorem getBit_setBit_iff {vData : List UInt8} {i j : ℕ} (hi : i < vData.length * 8) :
    getBit (setBit vData i) j = true ↔ getBit vData j = true ∨ i = j := by
  constructor
  · intro h
    by_cases hsame : i / 8 = j / 8
    · rw [getBit, bne_iff_ne] at h ⊢
      have hbyte : j / 8 < vData.length := by omega
      rw [setBit, hsame, List.getElem?_modify_eq, List.getElem?_eq_getElem hbyte,
        Option.map_eq_map, Option.map_some, Option.getD_some, or_and] at h
      rw [List.getElem?_eq_getElem hbyte, Option.getD_some]
      by_cases hold : vData[j / 8] &&& bitMask j = 0
      · right
        have hmask : bitMask i &&& bitMask j ≠ 0 := by
          intro hzero
          exact h (UInt8.or_eq_zero_iff.mpr ⟨hold, hzero⟩)
        have hrest := bitMask_and_bitMask hmask
        omega
      · exact .inl hold
    · left
      rwa [getBit, setBit, List.getElem?_modify_ne _ _ hsame] at h
  · rintro (h | rfl)
    · exact getBit_setBit h
    · exact getBit_setBit_self hi

namespace CBloomFilter

/-- The loop over the hashes sets their bits and no others. -/
theorem foldlM_setBit_iff (key : List UInt8) : ∀ (l : List ℕ) {f f' : CBloomFilter},
    0 < f.vData.length * 8 → l.foldlM (fun f i => do
      let nIndex ← CBloomFilter.hash f i key
      some { f with vData := setBit f.vData nIndex }) f = some f' →
    ∀ j, Bloom.getBit f'.vData j = true ↔
      Bloom.getBit f.vData j = true ∨ ∃ i ∈ l, f.index i key = j := by
  intro l
  induction l with
  | nil =>
    intro f f' _ hrun j
    obtain rfl := Option.some.inj hrun
    exact ⟨.inl, fun h => h.resolve_right fun ⟨i, hi, _⟩ => by cases hi⟩
  | cons i l ih =>
    intro f f' hpos hrun j
    rw [List.foldlM_cons, hash_eq hpos] at hrun
    have hrest := ih (f := { f with vData := setBit f.vData (f.index i key) })
      (by rwa [length_setBit]) hrun j
    have hindex : ∀ k, index { f with vData := setBit f.vData (f.index i key) } k key =
        f.index k key := by
      intro k
      simp only [index, length_setBit]
    rw [hrest, getBit_setBit_iff (index_lt hpos i key), or_assoc, List.exists_mem_cons_iff]
    simp only [hindex]

/-- `insert` sets the bits of the key and no others. -/
theorem getBit_insert {f f' : CBloomFilter} {key : List UInt8} (hfull : f.isFull = false)
    (hpos : 0 < f.vData.length * 8) (h : f.insert key = some f') (j : ℕ) :
    Bloom.getBit f'.vData j = true ↔
      Bloom.getBit f.vData j = true ∨ ∃ i < f.nHashFuncs.toNat, f.index i key = j := by
  rw [insert, if_neg (Bool.eq_false_iff.mp hfull)] at h
  obtain ⟨f₁, hrun, hf'⟩ := Option.bind_eq_some_iff.mp h
  obtain rfl := Option.some.inj hf'
  rw [foldlM_setBit_iff key _ hpos hrun]
  simp only [List.mem_range]

theorem isEmpty_insert {f f' : CBloomFilter} {key : List UInt8} (hfull : f.isFull = false)
    (h : f.insert key = some f') : f'.isEmpty = false := by
  rw [insert, if_neg (Bool.eq_false_iff.mp hfull)] at h
  obtain ⟨f₁, -, hf'⟩ := Option.bind_eq_some_iff.mp h
  obtain rfl := Option.some.inj hf'
  rfl

/-! ## The keys of a filter -/

/-- The filter `f` is the empty filter `e` with some keys. -/
structure Holds (e f : CBloomFilter) (keys : List (List UInt8)) : Prop where
  grows : Grows e f
  isEmpty : f.isEmpty = keys.isEmpty
  getBit : ∀ j, Bloom.getBit f.vData j = true ↔
    ∃ key ∈ keys, ∃ i < e.nHashFuncs.toNat, e.index i key = j

/-- A filter with these keys contains the key. -/
def Covered (e : CBloomFilter) (keys : List (List UInt8)) (key : List UInt8) : Prop :=
  keys ≠ [] ∧ ∀ i < e.nHashFuncs.toNat, ∃ key' ∈ keys, ∃ i' < e.nHashFuncs.toNat,
    e.index i' key' = e.index i key

theorem covered_of_mem (e : CBloomFilter) {keys : List (List UInt8)} {key : List UInt8}
    (h : key ∈ keys) : e.Covered keys key :=
  ⟨List.ne_nil_of_mem h, fun i hi => ⟨key, h, i, hi, rfl⟩⟩

theorem Covered.mono {e : CBloomFilter} {keys keys' : List (List UInt8)} {key : List UInt8}
    (h : e.Covered keys key) (hsub : keys ⊆ keys') : e.Covered keys' key := by
  obtain ⟨hne, hbits⟩ := h
  obtain ⟨k, hk⟩ := List.exists_mem_of_ne_nil _ hne
  refine ⟨List.ne_nil_of_mem (hsub hk), fun i hi => ?_⟩
  obtain ⟨key', hkey', hbit⟩ := hbits i hi
  exact ⟨key', hsub hkey', hbit⟩

section

variable {length : ℕ} {nHashFuncs nTweak : UInt32} {f : CBloomFilter} {keys : List (List UInt8)}

theorem getBit_replicate_zero (length j : ℕ) :
    Bloom.getBit (List.replicate length 0) j = false := by
  rw [Bloom.getBit, List.getElem?_replicate]
  split <;> simp

theorem holds_empty (length : ℕ) (nHashFuncs nTweak : UInt32) :
    Holds (emptyFilter length nHashFuncs nTweak) (emptyFilter length nHashFuncs nTweak) [] where
  grows := Grows.refl _
  isEmpty := rfl
  getBit := by
    intro j
    rw [emptyFilter, getBit_replicate_zero]
    constructor
    · intro h
      cases h
    · rintro ⟨key, hkey, -⟩
      cases hkey

/-- Clearing a filter. -/
theorem Holds.clear_eq (h : Holds (emptyFilter length nHashFuncs nTweak) f keys) :
    f.clear = emptyFilter length nHashFuncs nTweak := by
  have hlen := h.grows.length
  rw [emptyFilter, List.length_replicate] at hlen
  have hfuncs := h.grows.nHashFuncs
  have htweak := h.grows.nTweak
  have hflags := h.grows.nFlags
  cases f
  simp only [emptyFilter] at hlen hfuncs htweak hflags
  rw [clear, emptyFilter, hlen, hfuncs, htweak, hflags]

theorem Holds.reset_eq (h : Holds (emptyFilter length nHashFuncs nTweak) f keys)
    (nNewTweak : UInt32) : f.reset nNewTweak = emptyFilter length nHashFuncs nNewTweak := by
  rw [reset, h.clear_eq]
  rfl

theorem Holds.isFull (h : Holds (emptyFilter length nHashFuncs nTweak) f keys) :
    f.isFull = false := h.grows.isFull

theorem Holds.length_pos (h : Holds (emptyFilter length nHashFuncs nTweak) f keys)
    (hlength : length ≠ 0) : 0 < f.vData.length * 8 := by
  have hlen := h.grows.length
  rw [emptyFilter, List.length_replicate] at hlen
  omega

theorem Holds.safe (h : Holds (emptyFilter length nHashFuncs nTweak) f keys)
    (hlength : length ≠ 0) : f.Safe := by
  intro _ hnil
  have hpos := h.length_pos hlength
  rw [hnil] at hpos
  exact absurd hpos (by decide)

/-- A key that comes in. -/
theorem Holds.insert (h : Holds (emptyFilter length nHashFuncs nTweak) f keys)
    (hlength : length ≠ 0) (key : List UInt8) : ∃ f', f.insert key = some f' ∧
      Holds (emptyFilter length nHashFuncs nTweak) f' (key :: keys) := by
  obtain ⟨f', hrun, hgrows, -⟩ := insert_spec (h.safe hlength) key
  refine ⟨f', hrun, h.grows.trans hgrows, ?_, ?_⟩
  · exact isEmpty_insert h.isFull hrun
  · intro j
    rw [getBit_insert h.isFull (h.length_pos hlength) hrun, h.getBit, h.grows.nHashFuncs,
      List.exists_mem_cons_iff, or_comm]
    simp only [h.grows.index]

/-- What a filter with some keys contains. -/
theorem Holds.contains_iff (h : Holds (emptyFilter length nHashFuncs nTweak) f keys)
    (hlength : length ≠ 0) (key : List UInt8) : f.contains key = some true ↔
      Covered (emptyFilter length nHashFuncs nTweak) keys key := by
  rw [contains_eq (h.safe hlength), Option.some.injEq, decide_eq_true_iff, Contains, h.isFull,
    h.isEmpty, Covered, ne_eq, ← List.isEmpty_iff, Bool.not_eq_true]
  constructor
  · rintro (hfull | ⟨hne, hmarked⟩)
    · cases hfull
    · refine ⟨hne, fun i hi => ?_⟩
      rw [← h.grows.nHashFuncs] at hi
      have hbit := hmarked i hi
      rw [h.grows.index] at hbit
      exact (h.getBit _).mp hbit
  · rintro ⟨hne, hbits⟩
    refine .inr ⟨hne, fun i hi => ?_⟩
    rw [h.grows.nHashFuncs] at hi
    rw [h.grows.index]
    exact (h.getBit _).mpr (hbits i hi)

end

end CBloomFilter

namespace CRollingBloomFilter

open CBloomFilter

/-! ## What the two filters hold -/

variable {nElements nHashFuncs : UInt32} {length : ℕ} {rand : Rand} {r : CRollingBloomFilter}
  {keys : List (List UInt8)}

/-- Half of `nBloomSize`. -/
def half (nElements : UInt32) : ℕ := nElements.toNat % 2147483648

/-- After how many insertions the counter is zero again. -/
def period (nElements : UInt32) : ℕ :=
  if half nElements = 0 then 4294967296 else 2 * half nElements

/-- How many keys the first filter has when the counter is `n`. -/
def firstWindow (nElements : UInt32) (n : ℕ) : ℕ := if n = 0 then period nElements else n

/-- How many keys the second filter has, if it is ever cleared. -/
def secondWindow (nElements : UInt32) (n : ℕ) : ℕ :=
  if n ≤ half nElements then n + half nElements else n - half nElements

/-- How many keys the filter has that is asked. -/
def window (nElements : UInt32) (n : ℕ) : ℕ :=
  if n < half nElements then n + half nElements else firstWindow nElements n

/-- The two filters after the keys came in, the latest first. -/
structure Tracks (nElements : UInt32) (length : ℕ) (nHashFuncs : UInt32) (rand : Rand)
    (r : CRollingBloomFilter) (keys : List (List UInt8)) : Prop where
  nBloomSize : r.nBloomSize = nElements * 2
  nInsertions : r.nInsertions.toNat = keys.length % period nElements
  first : Holds (emptyFilter length nHashFuncs rand.tweak) r.b1
    (keys.take (firstWindow nElements (keys.length % period nElements)))
  second : ∃ keys₂, Holds (emptyFilter length nHashFuncs rand.tweak) r.b2 keys₂ ∧
    (half nElements ≠ 0 →
      keys₂ = keys.take (secondWindow nElements (keys.length % period nElements)))

theorem half_lt (nElements : UInt32) : half nElements < 2147483648 := Nat.mod_lt _ (by omega)

theorem period_le (nElements : UInt32) : period nElements ≤ 4294967296 := by
  have hhalf := half_lt nElements
  rw [period]
  split <;> omega

theorem two_le_period (nElements : UInt32) : 2 ≤ period nElements := by
  rw [period]
  split <;> omega

theorem toNat_nBloomSize (nElements : UInt32) : (nElements * 2).toNat = 2 * half nElements := by
  have htwo : (2 : UInt32).toNat = 2 := rfl
  rw [UInt32.toNat_mul, half, htwo]
  omega

/-- One more on a circle. -/
theorem add_one_mod (a P : ℕ) (hP : 0 < P) :
    (a + 1) % P = if a % P + 1 = P then 0 else a % P + 1 := by
  have hdecompose : a + 1 = P * (a / P) + (a % P + 1) := by
    have := Nat.div_add_mod a P
    omega
  have hlt := Nat.mod_lt a hP
  rw [hdecompose, Nat.mul_add_mod]
  split
  · next heq => rw [heq, Nat.mod_self]
  · next hne => exact Nat.mod_eq_of_lt (by omega)

namespace Tracks

theorem nInsertions_eq_zero : r.nInsertions = 0 ↔ r.nInsertions.toNat = 0 :=
  ⟨fun h => h ▸ rfl, fun h => UInt32.toNat_inj.mp h⟩

variable (h : Tracks nElements length nHashFuncs rand r keys)
include h

theorem nInsertions_lt : r.nInsertions.toNat < period nElements := by
  rw [h.nInsertions]
  exact Nat.mod_lt _ (by have := two_le_period nElements; omega)

theorem toNat_half : (r.nBloomSize / 2).toNat = half nElements := by
  have htwo : (2 : UInt32).toNat = 2 := rfl
  rw [UInt32.toNat_div, h.nBloomSize, toNat_nBloomSize, htwo]
  omega

theorem nInsertions_eq_half :
    r.nInsertions = r.nBloomSize / 2 ↔ r.nInsertions.toNat = half nElements := by
  rw [← UInt32.toNat_inj, h.toNat_half]

theorem nInsertions_lt_half :
    r.nInsertions < r.nBloomSize / 2 ↔ r.nInsertions.toNat < half nElements := by
  rw [UInt32.lt_iff_toNat_lt, h.toNat_half]

/-- The counter comes back to zero after `period` insertions. -/
theorem succ_eq_nBloomSize :
    r.nInsertions + 1 = r.nBloomSize ↔ r.nInsertions.toNat + 1 = period nElements := by
  have hlt := h.nInsertions_lt
  have hle := period_le nElements
  have hone : (1 : UInt32).toNat = 1 := rfl
  have hhalf := half_lt nElements
  rw [← UInt32.toNat_inj, UInt32.toNat_add, h.nBloomSize, toNat_nBloomSize, hone]
  unfold period at hlt hle ⊢
  by_cases hzero : half nElements = 0
  · rw [if_pos hzero] at hlt hle ⊢
    omega
  · rw [if_neg hzero] at hlt hle ⊢
    omega

theorem toNat_next :
    (if r.nInsertions + 1 = r.nBloomSize then 0 else r.nInsertions + 1).toNat =
      (keys.length + 1) % period nElements := by
  have hlt := h.nInsertions_lt
  have hle := period_le nElements
  have hone : (1 : UInt32).toNat = 1 := rfl
  rw [add_one_mod _ _ (by have := two_le_period nElements; omega), ← h.nInsertions]
  by_cases hwrap : r.nInsertions.toNat + 1 = period nElements
  · rw [if_pos (h.succ_eq_nBloomSize.mpr hwrap), if_pos hwrap]
    rfl
  · rw [if_neg (fun hc => hwrap (h.succ_eq_nBloomSize.mp hc)), if_neg hwrap, UInt32.toNat_add]
    omega

/-- The first filter when a key is about to come in. -/
theorem stagger_first : Holds (emptyFilter length nHashFuncs rand.tweak) r.stagger.b1
    (keys.take r.nInsertions.toNat) := by
  have hfirst := h.first
  rw [← h.nInsertions, firstWindow] at hfirst
  rw [stagger]
  by_cases hzero : r.nInsertions = 0
  · rw [if_pos hzero, nInsertions_eq_zero.mp hzero, List.take_zero]
    change Holds _ r.b1.clear []
    rw [hfirst.clear_eq]
    exact holds_empty _ _ _
  · rw [if_neg (fun hc => hzero (nInsertions_eq_zero.mpr hc))] at hfirst
    rw [if_neg hzero]
    split <;> exact hfirst

/-- The second filter when a key is about to come in. -/
theorem stagger_second :
    ∃ keys₂, Holds (emptyFilter length nHashFuncs rand.tweak) r.stagger.b2 keys₂ ∧
      (half nElements ≠ 0 → keys₂ = keys.take (if r.nInsertions.toNat < half nElements then
        r.nInsertions.toNat + half nElements else r.nInsertions.toNat - half nElements)) := by
  obtain ⟨keys₂, hsecond, hkeys⟩ := h.second
  rw [← h.nInsertions, secondWindow] at hkeys
  rw [stagger]
  by_cases hzero : r.nInsertions = 0
  · rw [if_pos hzero]
    refine ⟨keys₂, hsecond, fun hhalf => ?_⟩
    have hzero' := nInsertions_eq_zero.mp hzero
    rw [hkeys hhalf, if_pos (by omega), if_pos (by omega)]
  · rw [if_neg hzero]
    by_cases hclear : r.nInsertions = r.nBloomSize / 2
    · rw [if_pos hclear]
      refine ⟨[], ?_, fun _ => ?_⟩
      · change Holds _ r.b2.clear []
        rw [hsecond.clear_eq]
        exact holds_empty _ _ _
      · have hhalf := h.nInsertions_eq_half.mp hclear
        rw [if_neg (by omega), hhalf, Nat.sub_self, List.take_zero]
    · rw [if_neg hclear]
      refine ⟨keys₂, hsecond, fun hhalf => ?_⟩
      have hne : r.nInsertions.toNat ≠ half nElements := fun hc =>
        hclear (h.nInsertions_eq_half.mpr hc)
      rw [hkeys hhalf]
      by_cases hlt : r.nInsertions.toNat < half nElements
      · rw [if_pos hlt, if_pos hlt.le]
      · rw [if_neg hlt, if_neg (by omega)]

/-- **A key comes in.** -/
theorem insert (hlength : length ≠ 0) (key : List UInt8) : ∃ r', r.insert key = some r' ∧
    Tracks nElements length nHashFuncs rand r' (key :: keys) := by
  have hlt := h.nInsertions_lt
  have hnext := add_one_mod keys.length (period nElements)
    (by have := two_le_period nElements; omega)
  obtain ⟨b1, hb1, hfirst⟩ := h.stagger_first.insert hlength key
  obtain ⟨keys₂, hsecond, hkeys⟩ := h.stagger_second
  obtain ⟨b2, hb2, hsecond'⟩ := hsecond.insert hlength key
  have hrun : r.insert key = some ⟨r.nBloomSize,
      if r.nInsertions + 1 = r.nBloomSize then 0 else r.nInsertions + 1, b1, b2⟩ := by
    rw [CRollingBloomFilter.insert, hb1, hb2]
    rfl
  refine ⟨_, hrun, h.nBloomSize, ?_, ?_, ?_⟩
  · exact h.toNat_next
  · rw [List.length_cons, hnext, ← h.nInsertions, firstWindow]
    rw [← List.take_succ_cons] at hfirst
    by_cases hwrap : r.nInsertions.toNat + 1 = period nElements
    · rwa [if_pos hwrap, if_pos rfl, ← hwrap]
    · rwa [if_neg hwrap, if_neg (Nat.succ_ne_zero _)]
  · refine ⟨key :: keys₂, hsecond', fun hhalf => ?_⟩
    have hperiod : period nElements = 2 * half nElements := by rw [period, if_neg hhalf]
    rw [hperiod] at hlt
    rw [hkeys hhalf, ← List.take_succ_cons, List.length_cons, hnext, ← h.nInsertions,
      secondWindow, hperiod]
    refine congrArg (fun n => List.take n (key :: keys)) ?_
    split <;> split <;> split <;> omega

/-- **A reset.** -/
theorem reset (rand' : Rand) : Tracks nElements length nHashFuncs rand' (r.reset rand') [] := by
  obtain ⟨keys₂, hsecond, -⟩ := h.second
  refine ⟨h.nBloomSize, ?_, ?_, [], ?_, fun _ => List.take_nil.symm⟩
  · rw [List.length_nil, Nat.zero_mod]
    rfl
  · change Holds _ (r.b1.reset rand'.tweak) _
    rw [h.first.reset_eq, List.take_nil]
    exact holds_empty _ _ _
  · change Holds _ (r.b2.reset rand'.tweak) _
    rw [hsecond.reset_eq]
    exact holds_empty _ _ _

/-- What the filter contains that is asked. -/
theorem contains_iff (hlength : length ≠ 0) (key : List UInt8) :
    r.contains key = some true ↔ Covered (emptyFilter length nHashFuncs rand.tweak)
      (keys.take (window nElements (keys.length % period nElements))) key := by
  rw [contains, window, ← h.nInsertions]
  by_cases hlt : r.nInsertions.toNat < half nElements
  · obtain ⟨keys₂, hsecond, hkeys⟩ := h.second
    rw [if_pos (h.nInsertions_lt_half.mpr hlt), if_pos hlt, hsecond.contains_iff hlength,
      hkeys (by omega), ← h.nInsertions, secondWindow, if_pos hlt.le]
  · rw [if_neg (fun hc => hlt (h.nInsertions_lt_half.mp hc)), if_neg hlt,
      h.first.contains_iff hlength, ← h.nInsertions]

end Tracks

theorem tracks_construct (nElements : UInt32) (length : ℕ) (nHashFuncs : UInt32) (rand : Rand) :
    Tracks nElements length nHashFuncs rand (construct nElements length nHashFuncs rand) [] where
  nBloomSize := rfl
  nInsertions := (Nat.zero_mod _).symm
  first := by
    change Holds _ ((emptyFilter length nHashFuncs 0).reset rand.tweak) _
    rw [(holds_empty length nHashFuncs 0).reset_eq, List.take_nil]
    exact holds_empty _ _ _
  second := by
    refine ⟨[], ?_, fun _ => List.take_nil.symm⟩
    change Holds _ ((emptyFilter length nHashFuncs 0).reset rand.tweak) _
    rw [(holds_empty length nHashFuncs 0).reset_eq]
    exact holds_empty _ _ _

/-- The random number that the filters have after a call. -/
def randStep (rand : Rand) : Call → Rand
  | .insert _ => rand
  | .reset rand' => rand'

/-- A run never fails, and the filters hold what came in. -/
theorem run_spec (hlength : length ≠ 0) : ∀ (calls : List Call) {r : CRollingBloomFilter}
    {keys : List (List UInt8)} {rand : Rand}, Tracks nElements length nHashFuncs rand r keys →
    ∃ r', r.run calls = some r' ∧ Tracks nElements length nHashFuncs
      (calls.foldl randStep rand) r' (calls.foldl recentStep keys) := by
  intro calls
  induction calls with
  | nil =>
    intro r keys rand h
    exact ⟨r, rfl, h⟩
  | cons call calls ih =>
    intro r keys rand h
    cases call with
    | insert vKey =>
      obtain ⟨r₁, hrun, h₁⟩ := h.insert hlength vKey
      obtain ⟨r', hrest, h'⟩ := ih h₁
      refine ⟨r', ?_, h'⟩
      rw [run, List.foldlM_cons, step, hrun]
      exact hrest
    | reset rand₁ =>
      obtain ⟨r', hrest, h'⟩ := ih (h.reset rand₁)
      exact ⟨r', hrest, h'⟩

/-! ## What a rolling filter remembers -/

theorem window_pos (nElements : UInt32) (n : ℕ) : 0 < window nElements n := by
  have hperiod := two_le_period nElements
  rw [window, firstWindow]
  split
  · omega
  · split <;> omega

theorem le_window (h : nElements.toNat < 2147483648) (n : ℕ) :
    nElements.toNat ≤ window nElements n := by
  have hhalf : half nElements = nElements.toNat := Nat.mod_eq_of_lt h
  rw [window, firstWindow, period, hhalf]
  split
  · omega
  · split
    · split <;> omega
    · omega

theorem mem_take_of_pos {α : Type} (a : α) (l : List α) {n : ℕ} (h : 0 < n) :
    a ∈ (a :: l).take n := by
  cases n with
  | zero => cases h
  | succ n => exact List.mem_cons_self

/-- A filter with one key contains every key, whatever the tweak is. -/
def Blind (length : ℕ) (nHashFuncs : UInt32) : Prop :=
  ∀ (rand : Rand) (key key' : List UInt8),
    Covered (emptyFilter length nHashFuncs rand.tweak) [key'] key

/-- How often the forgotten key comes in, and then another one. -/
def forgetEarly (nElements : UInt32) : ℕ :=
  if half nElements = 0 then 4294967296 else half nElements

def forgetLate (nElements : UInt32) : ℕ := if half nElements = 0 then 1 else half nElements

def forgetCalls (nElements : UInt32) (rand : Rand) (key key' : List UInt8) : List Call :=
  .reset rand :: (List.replicate (forgetEarly nElements) (Call.insert key) ++
    List.replicate (forgetLate nElements) (Call.insert key'))

theorem foldl_recentStep_replicate (key : List UInt8) : ∀ (n : ℕ) (keys : List (List UInt8)),
    (List.replicate n (Call.insert key)).foldl recentStep keys = List.replicate n key ++ keys := by
  intro n
  induction n with
  | zero =>
    intro keys
    rfl
  | succ n ih =>
    intro keys
    rw [List.replicate_succ, List.foldl_cons, ih, recentStep, List.replicate_succ', List.append_assoc]
    rfl

theorem foldl_randStep_replicate (key : List UInt8) (rand : Rand) : ∀ n : ℕ,
    (List.replicate n (Call.insert key)).foldl randStep rand = rand := by
  intro n
  induction n with
  | zero => rfl
  | succ n ih => rwa [List.replicate_succ, List.foldl_cons, randStep]

theorem randStep_forgetCalls (nElements : UInt32) (rand rand' : Rand) (key key' : List UInt8) :
    (forgetCalls nElements rand key key').foldl randStep rand' = rand := by
  rw [forgetCalls, List.foldl_cons, List.foldl_append, foldl_randStep_replicate,
    foldl_randStep_replicate, randStep]

theorem recent_forgetCalls (nElements : UInt32) (rand : Rand) (key key' : List UInt8)
    (keys : List (List UInt8)) : (forgetCalls nElements rand key key').foldl recentStep keys =
      List.replicate (forgetLate nElements) key' ++ List.replicate (forgetEarly nElements) key := by
  rw [forgetCalls, List.foldl_cons, List.foldl_append, foldl_recentStep_replicate,
    foldl_recentStep_replicate, recentStep, List.append_nil]

/-- The filter that is asked in the end has only the other key. -/
theorem window_forget (nElements : UInt32) :
    window nElements ((forgetLate nElements + forgetEarly nElements) % period nElements) =
      forgetLate nElements := by
  have hhalf := half_lt nElements
  rw [window, firstWindow, period, forgetLate, forgetEarly]
  by_cases hzero : half nElements = 0
  · rw [if_pos hzero, if_pos hzero, if_pos hzero, hzero]
    rfl
  · rw [if_neg hzero, if_neg hzero, if_neg hzero, ← two_mul, Nat.mod_self, if_pos (by omega),
      Nat.zero_add]

/-- The forgotten key is one of the last `nElements` keys. -/
theorem mem_take_forget (h : 2147483648 ≤ nElements.toNat) (key key' : List UInt8) :
    key ∈ (List.replicate (forgetLate nElements) key' ++
      List.replicate (forgetEarly nElements) key).take nElements.toNat := by
  have hlt := nElements.toNat_lt
  have hhalf : half nElements = nElements.toNat - 2147483648 := by
    rw [half]
    omega
  rw [List.take_append, List.length_replicate, List.take_replicate, List.take_replicate]
  refine List.mem_append_right _ (List.mem_replicate.mpr ⟨?_, rfl⟩)
  rw [forgetLate, forgetEarly]
  split <;> omega

/-- **What a rolling filter remembers.**  It contains each of the last `nElements` keys after every
run, if and only if `nElements * 2` does not wrap or the filters tell no keys apart. -/
theorem remembers_iff (nElements : UInt32) (length : ℕ) (nHashFuncs : UInt32) (rand : Rand)
    (hlength : length ≠ 0) :
    (∀ calls, ∃ r, (construct nElements length nHashFuncs rand).run calls = some r ∧
      ∀ key ∈ (recent calls).take nElements.toNat, r.contains key = some true) ↔
    nElements.toNat < 2147483648 ∨ Blind length nHashFuncs := by
  have hinit := tracks_construct nElements length nHashFuncs rand
  constructor
  · intro hall
    by_contra hcontra
    obtain ⟨hwrap, hblind⟩ := not_or.mp hcontra
    apply hblind
    intro rand₁ key key'
    obtain ⟨r, hrun, hremembers⟩ := hall (forgetCalls nElements rand₁ key key')
    obtain ⟨r', hrun', htracks⟩ := run_spec hlength (forgetCalls nElements rand₁ key key') hinit
    rw [hrun] at hrun'
    obtain rfl := Option.some.inj hrun'
    rw [randStep_forgetCalls, recent_forgetCalls] at htracks
    have hmem : key ∈ (recent (forgetCalls nElements rand₁ key key')).take nElements.toNat := by
      rw [recent, recent_forgetCalls]
      exact mem_take_forget (by omega) key key'
    have hcovered := (htracks.contains_iff hlength key).mp (hremembers key hmem)
    rw [List.length_append, List.length_replicate, List.length_replicate, window_forget,
      List.take_left' List.length_replicate] at hcovered
    refine hcovered.mono fun k hk => ?_
    rw [List.eq_of_mem_replicate hk]
    exact List.mem_singleton_self key'
  · rintro hcond calls
    obtain ⟨r, hrun, htracks⟩ := run_spec hlength calls hinit
    refine ⟨r, hrun, fun key hkey => (htracks.contains_iff hlength key).mpr ?_⟩
    rcases hcond with hlt | hblind
    · have hsub := List.take_subset_take_left (l := recent calls) (le_window hlt
        ((recent calls).length % period nElements))
      exact covered_of_mem _ (hsub hkey)
    · obtain ⟨key', keys, hkeys⟩ := List.exists_cons_of_ne_nil
        (List.ne_nil_of_mem (List.mem_of_mem_take hkey))
      refine (hblind _ key key').mono fun k hk => ?_
      rw [List.mem_singleton.mp hk]
      change key' ∈ (recent calls).take (window nElements ((recent calls).length % _))
      rw [hkeys]
      exact mem_take_of_pos key' keys (window_pos nElements _)

/-- Eight keys, so that both filters have been cleared, and another start in between. -/
def eightInserts : List Call :=
  [.insert [1], .insert [2], .insert [3], .insert [4], .insert [5], .insert [6], .insert [7],
    .insert [8]]

theorem remembers_iff_eightInserts :
    ∃ r, (construct 3 8 5 0).run eightInserts = some r ∧
      ∀ key ∈ [[8], [7], [6]], r.contains key = some true :=
  (remembers_iff 3 8 5 0 (by decide)).mpr (.inl (by decide)) eightInserts

/-- A filter for more than `2 ^ 31` keys that forgets a key as soon as another one comes in. -/
theorem not_remembers_wrap :
    ∃ r, (construct 2147483649 2 5 0).run [.insert [1], .insert [2]] = some r ∧
      [1] ∈ (recent [.insert [1], .insert [2]]).take (2147483649 : UInt32).toNat ∧
      r.contains [1] = some false := by
  refine ⟨⟨2, 0, _, _⟩, rfl, ?_, rfl⟩
  decide

end CRollingBloomFilter

end Bloom
