/-
# Version bits

`AbstractThresholdConditionChecker::GetStateFor` (`libs/server/versionbits.cpp`): the state of a
deployment for the block after `pindexPrev`.  It is the same for all blocks of a period; the last
block before the period, at a boundary, decides it, and the cache keeps it by this block.  A query
walks back to a boundary with a state that is known, or to one before the start time, and from there
forward again.

The answers are those of the recursion over the periods (`stateFor`), whatever was asked before:
every state in the cache is one of them (`Transparent`).
-/
import Hub.LockTime
import Mathlib

namespace BlockIndex

variable {ι : Type} {T : BlockIndex ι} {b a : ι} {height : ℤ}

theorem getAncestorAt_eq_some_iff :
    T.getAncestorAt b height = some a ↔ T.forest.Le a b ∧ (T.nHeight a : ℤ) = height := by
  rw [getAncestorAt_eq]
  split
  · next hnonneg =>
    rw [Forest.ancestor?_eq_some_iff]
    refine and_congr_right fun _ => ?_
    change T.nHeight a = height.toNat ↔ _
    omega
  · next hneg =>
    constructor
    · intro h
      cases h
    · rintro ⟨-, h⟩
      omega

theorem getAncestorAt_eq_none_iff (hle : height ≤ T.nHeight b) :
    T.getAncestorAt b height = none ↔ height < 0 := by
  rw [getAncestorAt_eq]
  split
  · next hnonneg =>
    have hle' : height.toNat ≤ T.forest.height b := by
      change height.toNat ≤ T.nHeight b
      omega
    obtain ⟨a, ha⟩ := Forest.ancestor?_isSome hle'
    rw [ha]
    constructor
    · intro h
      cases h
    · intro h
      omega
  · next hneg => exact ⟨fun _ => by omega, fun _ => rfl⟩

end BlockIndex

namespace VersionBits

open LockTime (getMedianTimePast)

/-- `ThresholdState`. -/
inductive ThresholdState where
  | defined
  | started
  | lockedIn
  | active
  | failed
  deriving DecidableEq

/-- `AbstractThresholdConditionChecker`, with what its virtual functions return. -/
structure Checker (ι : Type) where
  condition : ι → Bool
  beginTime : ℤ
  endTime : ℤ
  period : ℤ
  threshold : ℤ

/-- `ThresholdConditionCache`; a null pointer is `none`. -/
abbrev Cache (ι : Type) := AList fun _ : Option ι => ThresholdState

section

variable {ι : Type} (T : BlockIndex ι) (nTime : ι → UInt32) (c : Checker ι)

/-- The last block before the period of the block after `pindexPrev`. -/
def boundary (pindexPrev : Option ι) : Option ι :=
  pindexPrev.bind fun b => T.getAncestorAt b (T.nHeight b - (T.nHeight b + 1) % c.period)

/-- The boundary one period before. -/
def previous (b : ι) : Option ι := T.getAncestorAt b (T.nHeight b - c.period)

/-- The loop that counts; a null pointer that is read is `none`. -/
def countLoop : ℕ → Option ι → ℤ → Option ℤ
  | 0, _, count => some count
  | _ + 1, none, _ => none
  | i + 1, some pindexCount, count =>
      countLoop i (T.pprev pindexCount) (if c.condition pindexCount then count + 1 else count)

/-- The switch over the state, for the next boundary. -/
def stateNext (state : ThresholdState) (pindexPrev : ι) : Option ThresholdState :=
  match state with
  | .defined => some
      (if getMedianTimePast T nTime pindexPrev ≥ c.endTime then .failed
      else if getMedianTimePast T nTime pindexPrev ≥ c.beginTime then .started
      else .defined)
  | .started =>
      if getMedianTimePast T nTime pindexPrev ≥ c.endTime then some .failed
      else do
        let count ← countLoop T c c.period.toNat (some pindexPrev) 0
        some (if count ≥ c.threshold then .lockedIn else .started)
  | .lockedIn => some .active
  | .failed => some .failed
  | .active => some .active

variable [DecidableEq ι]

/-- The walk back, with the boundaries that are to compute, the last one first; the first argument
bounds the rounds. -/
def walkBack : ℕ → Cache ι → List ι → Option ι → Option (Cache ι × List ι × Option ι)
  | 0, _, _, _ => none
  | fuel + 1, cache, vToCompute, pindexPrev =>
      if (cache.lookup pindexPrev).isSome then some (cache, vToCompute, pindexPrev)
      else
        match pindexPrev with
        | none => some (cache.insert none .defined, vToCompute, none)
        | some b =>
            if getMedianTimePast T nTime b < c.beginTime then
              some (cache.insert (some b) .defined, vToCompute, some b)
            else walkBack fuel cache (b :: vToCompute) (previous T c b)

/-- The walk forward. -/
def walkForward : List ι → ThresholdState → Cache ι → Option (ThresholdState × Cache ι)
  | [], state, cache => some (state, cache)
  | b :: vToCompute, state, cache => do
      let state ← stateNext T nTime c state b
      walkForward vToCompute state (cache.insert (some b) state)

/-- `GetStateFor`; `none` is the failed assertion or a null pointer that is read. -/
def getStateFor (pindexPrev : Option ι) (cache : Cache ι) : Option (ThresholdState × Cache ι) := do
  let rounds := (boundary T c pindexPrev).elim 1 fun b => T.nHeight b + 2
  let (cache, vToCompute, known) ← walkBack T nTime c rounds cache [] (boundary T c pindexPrev)
  let state ← cache.lookup known
  walkForward T nTime c vToCompute state cache

/-- Queries that share a cache. -/
def run : List (Option ι) → Cache ι → Option (List ThresholdState × Cache ι)
  | [], cache => some ([], cache)
  | pindexPrev :: queries, cache => do
      let (state, cache) ← getStateFor T nTime c pindexPrev cache
      let (states, cache) ← run queries cache
      some (state :: states, cache)

end

/-! ## The states by recursion over the periods -/

section

variable {ι : Type} (T : BlockIndex ι) (nTime : ι → UInt32) (c : Checker ι)

/-- How many blocks of the period that ends with `b` meet the condition. -/
def conditionCount (b : ι) : ℕ :=
  ((List.range c.period.toNat).filterMap fun i => Forest.up T.pprev i b).countP c.condition

/-- The state for the period after the boundary `b`, by the state for the period before. -/
def next (state : ThresholdState) (b : ι) : ThresholdState :=
  match state with
  | .defined =>
      if c.endTime ≤ getMedianTimePast T nTime b then .failed
      else if c.beginTime ≤ getMedianTimePast T nTime b then .started
      else .defined
  | .started =>
      if c.endTime ≤ getMedianTimePast T nTime b then .failed
      else if c.threshold ≤ conditionCount T c b then .lockedIn
      else .started
  | .lockedIn => .active
  | .failed => .failed
  | .active => .active

/-- The state after some periods, up to the boundary. -/
def stateAfter : ℕ → Option ι → ThresholdState
  | 0, _ => .defined
  | _ + 1, none => .defined
  | n + 1, some b => next T nTime c (stateAfter n (previous T c b)) b

/-- The number of the period of the block after `pindexPrev`. -/
def periodOf (pindexPrev : Option ι) : ℤ :=
  pindexPrev.elim 0 fun b => (T.nHeight b + 1) / c.period

/-- The state for the block after `pindexPrev`. -/
def stateFor (pindexPrev : Option ι) : ThresholdState :=
  stateAfter T nTime c (periodOf T c pindexPrev).toNat (boundary T c pindexPrev)

/-- A block, or the null pointer, on the way to another. -/
def Before (p q : Option ι) : Prop := ∀ b, p = some b → ∃ b', q = some b' ∧ T.forest.Le b b'

/-! ### Boundaries -/

/-- The null pointer, and the last blocks of the periods. -/
def IsBoundary (p : Option ι) : Prop := ∀ b, p = some b → (T.nHeight b + 1 : ℤ) % c.period = 0

variable {T nTime c} {b b' : ι}

section

variable (hperiod : 1 ≤ c.period)
include hperiod

theorem boundary_some_cases (b : ι) :
    (∃ b', boundary T c (some b) = some b' ∧ T.forest.Le b' b ∧
      (T.nHeight b' + 1 : ℤ) = c.period * ((T.nHeight b + 1) / c.period)) ∨
    (boundary T c (some b) = none ∧ (T.nHeight b + 1 : ℤ) / c.period = 0) := by
  have hdecompose := Int.mul_ediv_add_emod (T.nHeight b + 1 : ℤ) c.period
  have hmod := Int.emod_nonneg (T.nHeight b + 1 : ℤ) (by omega : c.period ≠ 0)
  rw [boundary, Option.bind_some]
  cases hb : T.getAncestorAt b (T.nHeight b - (T.nHeight b + 1) % c.period) with
  | some b' =>
    obtain ⟨hle, hheight⟩ := BlockIndex.getAncestorAt_eq_some_iff.mp hb
    exact .inl ⟨b', rfl, hle, by omega⟩
  | none =>
    have hneg := (BlockIndex.getAncestorAt_eq_none_iff (by omega)).mp hb
    have hlt := Int.emod_lt_of_pos (T.nHeight b + 1 : ℤ) (by omega : 0 < c.period)
    exact .inr ⟨rfl, Int.ediv_eq_zero_of_lt (by omega) (by omega)⟩

theorem isBoundary_boundary (p : Option ι) : IsBoundary T c (boundary T c p) := by
  intro b' hb'
  cases p with
  | none => cases hb'
  | some b =>
    rcases boundary_some_cases (T := T) hperiod b with ⟨b'', hb'', -, hheight⟩ | ⟨hnone, -⟩
    · rw [hb''] at hb'
      obtain rfl := Option.some.inj hb'
      rw [hheight, Int.mul_emod_right]
    · rw [hnone] at hb'
      cases hb'

theorem periodOf_boundary (p : Option ι) : periodOf T c (boundary T c p) = periodOf T c p := by
  cases p with
  | none => rfl
  | some b =>
    rcases boundary_some_cases (T := T) hperiod b with ⟨b', hb', -, hheight⟩ | ⟨hnone, hzero⟩
    · rw [hb', periodOf, periodOf, Option.elim_some, Option.elim_some, hheight,
        Int.mul_ediv_cancel_left _ (by omega)]
    · rw [hnone, periodOf, periodOf, Option.elim_none, Option.elim_some, hzero]

omit hperiod in
theorem boundary_of_isBoundary {p : Option ι} (h : IsBoundary T c p) : boundary T c p = p := by
  cases p with
  | none => rfl
  | some b =>
    rw [boundary, Option.bind_some, h b rfl, sub_zero]
    exact BlockIndex.getAncestorAt_eq_some_iff.mpr ⟨Forest.Le.refl b, rfl⟩

/-- The boundary before a boundary. -/
theorem previous_spec {b : ι} (h : IsBoundary T c (some b)) :
    IsBoundary T c (previous T c b) ∧
      periodOf T c (some b) = periodOf T c (previous T c b) + 1 := by
  have hmod := h b rfl
  have hdecompose := Int.mul_ediv_add_emod (T.nHeight b + 1 : ℤ) c.period
  cases hb : previous T c b with
  | none =>
    refine ⟨fun b' hb' => absurd hb' (Option.some_ne_none b').symm, ?_⟩
    have hneg := (BlockIndex.getAncestorAt_eq_none_iff (by omega)).mp hb
    have hself : (T.nHeight b + 1 : ℤ) = c.period := by
      apply le_antisymm
      · omega
      · exact Int.le_of_dvd (by omega) (Int.dvd_of_emod_eq_zero hmod)
    rw [periodOf, periodOf, Option.elim_some, Option.elim_none, hself, Int.ediv_self (by omega)]
    rfl
  | some b' =>
    obtain ⟨-, hheight⟩ := BlockIndex.getAncestorAt_eq_some_iff.mp hb
    have hshift : (T.nHeight b' + 1 : ℤ) = (T.nHeight b + 1) + -1 * c.period := by omega
    refine ⟨fun b'' hb'' => ?_, ?_⟩
    · obtain rfl := Option.some.inj hb''
      rw [hshift, Int.add_mul_emod_self_right, hmod]
    · rw [periodOf, periodOf, Option.elim_some, Option.elim_some, hshift,
        Int.add_mul_ediv_right _ _ (by omega)]
      omega

theorem periodOf_nonneg (p : Option ι) : 0 ≤ periodOf T c p := by
  cases p with
  | none => exact le_rfl
  | some b => exact Int.ediv_nonneg (by omega) (by omega)

/-! ### The states of boundaries -/

theorem stateFor_boundary (p : Option ι) :
    stateFor T nTime c (boundary T c p) = stateFor T nTime c p := by
  rw [stateFor, stateFor, periodOf_boundary hperiod,
    boundary_of_isBoundary (isBoundary_boundary hperiod p)]

/-- A boundary takes the state of the one before it further. -/
theorem stateFor_eq_next {b : ι} (h : IsBoundary T c (some b)) :
    stateFor T nTime c (some b) = next T nTime c (stateFor T nTime c (previous T c b)) b := by
  obtain ⟨hprevious, hperiods⟩ := previous_spec hperiod h
  have hnonneg := periodOf_nonneg (T := T) hperiod (previous T c b)
  have hsucc : (periodOf T c (some b)).toNat = (periodOf T c (previous T c b)).toNat + 1 := by
    omega
  rw [stateFor, boundary_of_isBoundary h, hsucc, stateAfter, stateFor,
    boundary_of_isBoundary hprevious]

end

/-- Before the start time nothing has happened yet. -/
theorem stateFor_early (hperiod : 1 ≤ c.period) (hstart : c.beginTime ≤ c.endTime)
    (hmtp : ∀ b p, T.pprev b = some p →
      getMedianTimePast T nTime p ≤ getMedianTimePast T nTime b) :
    ∀ {b : ι}, IsBoundary T c (some b) → getMedianTimePast T nTime b < c.beginTime →
      stateFor T nTime c (some b) = .defined := by
  have hall : ∀ (n : ℕ) (b : ι), T.nHeight b < n → IsBoundary T c (some b) →
      getMedianTimePast T nTime b < c.beginTime → stateFor T nTime c (some b) = .defined := by
    intro n
    induction n with
    | zero =>
      intro b hn
      omega
    | succ n ih =>
      intro b hn hb hearly
      obtain ⟨hprevious, -⟩ := previous_spec hperiod hb
      have hbefore : stateFor T nTime c (previous T c b) = .defined := by
        cases hp : previous T c b with
        | none => rfl
        | some b' =>
          obtain ⟨hle, hheight⟩ := BlockIndex.getAncestorAt_eq_some_iff.mp hp
          have hearly' : getMedianTimePast T nTime b' < c.beginTime := by
            apply hle.induction (P := fun x => getMedianTimePast T nTime x < c.beginTime)
            · intro x p hx hlt
              exact (hmtp x p hx).trans_lt hlt
            · exact hearly
          exact ih b' (by omega) (hp ▸ hprevious) hearly'
      rw [stateFor_eq_next hperiod hb, hbefore, next, if_neg (by omega), if_neg (by omega)]
  intro b hb hearly
  exact hall (T.nHeight b + 1) b (by omega) hb hearly

/-! ### The switch -/

/-- The loop counts the blocks that meet the condition, and meets no null pointer. -/
theorem countLoop_eq : ∀ (n : ℕ) (q : Option ι) (count : ℤ),
    n ≤ q.elim 0 (fun b => T.nHeight b + 1) →
    countLoop T c n q count = some (count +
      (((List.range n).filterMap fun i => q.bind (Forest.up T.pprev i)).countP c.condition : ℕ)) := by
  intro n
  induction n with
  | zero =>
    intro q count _
    rw [countLoop, List.range_zero, List.filterMap_nil, List.countP_nil, Nat.cast_zero, add_zero]
  | succ n ih =>
    intro q count hn
    cases q with
    | none => exact absurd hn (Nat.not_succ_le_zero n)
    | some b =>
      have hprev : n ≤ (T.pprev b).elim 0 (fun p => T.nHeight p + 1) := by
        cases hp : T.pprev b with
        | none =>
          rw [Option.elim_some, T.height_root b hp] at hn
          exact Nat.le_of_succ_le_succ hn
        | some p =>
          rw [Option.elim_some, T.height_child b p hp] at hn
          exact Nat.le_of_succ_le_succ hn
      have hfirst : (some b).bind (Forest.up T.pprev 0) = some b := rfl
      rw [countLoop, ih (T.pprev b) _ hprev, List.range_succ_eq_map, List.filterMap_cons, hfirst,
        List.filterMap_map, List.countP_cons]
      refine congrArg some ?_
      change _ = count + (((List.filterMap (fun i => (T.pprev b).bind (Forest.up T.pprev i))
        (List.range n)).countP c.condition + if c.condition b = true then 1 else 0 : ℕ) : ℤ)
      split <;> omega

theorem stateNext_eq (hperiod : 1 ≤ c.period) (state : ThresholdState) {b : ι}
    (h : IsBoundary T c (some b)) :
    stateNext T nTime c state b = some (next T nTime c state b) := by
  cases state with
  | started =>
    have hlong : c.period ≤ T.nHeight b + 1 :=
      Int.le_of_dvd (by omega) (Int.dvd_of_emod_eq_zero (h b rfl))
    have hcount := countLoop_eq (T := T) (c := c) c.period.toNat (some b) 0 (by
      rw [Option.elim_some]
      omega)
    rw [zero_add] at hcount
    rw [stateNext, next, hcount]
    split
    · rfl
    · rfl
  | defined => rfl
  | lockedIn => rfl
  | active => rfl
  | failed => rfl

/-! ## The cache is transparent -/

/-- Every state in the cache is that of the recursion. -/
def Transparent (T : BlockIndex ι) (nTime : ι → UInt32) (c : Checker ι) [DecidableEq ι]
    (cache : Cache ι) : Prop :=
  ∀ key state, cache.lookup key = some state → state = stateFor T nTime c key

/-- The boundaries that are still to compute lead from a known one to that of the query. -/
def Linked (T : BlockIndex ι) (c : Checker ι) : Option ι → List ι → Option ι → Prop
  | known, [], top => known = top
  | known, b :: vToCompute, top =>
      IsBoundary T c (some b) ∧ previous T c b = known ∧ Linked T c (some b) vToCompute top

variable [DecidableEq ι] {cache : Cache ι}

theorem Transparent.insert (h : Transparent T nTime c cache) (key : Option ι) :
    Transparent T nTime c (cache.insert key (stateFor T nTime c key)) := by
  intro key' state hlookup
  by_cases hsame : key' = key
  · rw [hsame, AList.lookup_insert] at hlookup
    rw [hsame]
    exact (Option.some.inj hlookup).symm
  · rw [AList.lookup_insert_ne hsame] at hlookup
    exact h key' state hlookup

section

variable (hperiod : 1 ≤ c.period) (hstart : c.beginTime ≤ c.endTime)
  (hmtp : ∀ b p, T.pprev b = some p → getMedianTimePast T nTime p ≤ getMedianTimePast T nTime b)
include hperiod

omit [DecidableEq ι] in
/-- The walk back goes down. -/
theorem rounds_previous {b : ι} {fuel : ℕ} (hfuel : T.nHeight b + 2 ≤ fuel + 1) :
    (previous T c b).elim 1 (fun b => T.nHeight b + 2) ≤ fuel := by
  cases hb : previous T c b with
  | none =>
    rw [Option.elim_none]
    omega
  | some b' =>
    obtain ⟨-, hheight⟩ := BlockIndex.getAncestorAt_eq_some_iff.mp hb
    rw [Option.elim_some]
    omega

include hstart hmtp

/-- The walk back finds a boundary whose state is known. -/
theorem walkBack_spec (top : Option ι) : ∀ (fuel : ℕ) (cache : Cache ι) (vToCompute : List ι)
    (p : Option ι), p.elim 1 (fun b => T.nHeight b + 2) ≤ fuel → Transparent T nTime c cache →
    IsBoundary T c p → Linked T c p vToCompute top →
    ∃ cache' vToCompute' known,
      walkBack T nTime c fuel cache vToCompute p = some (cache', vToCompute', known) ∧
      Transparent T nTime c cache' ∧ cache'.lookup known = some (stateFor T nTime c known) ∧
      Linked T c known vToCompute' top := by
  intro fuel
  induction fuel with
  | zero =>
    intro cache vToCompute p hfuel
    cases p with
    | none => exact absurd hfuel (Nat.not_succ_le_zero 0)
    | some b => exact absurd hfuel (Nat.not_succ_le_zero _)
  | succ fuel ih =>
    intro cache vToCompute p hfuel h hp hlinked
    unfold walkBack
    by_cases hknown : (cache.lookup p).isSome = true
    · rw [if_pos hknown]
      obtain ⟨state, hstate⟩ := Option.isSome_iff_exists.mp hknown
      refine ⟨cache, vToCompute, p, rfl, h, ?_, hlinked⟩
      rw [hstate, h p state hstate]
    · rw [if_neg hknown]
      cases p with
      | none =>
        exact ⟨_, vToCompute, none, rfl, h.insert none, AList.lookup_insert _, hlinked⟩
      | some b =>
        by_cases hearly : getMedianTimePast T nTime b < c.beginTime
        · have hstate := h.insert (some b)
          rw [stateFor_early hperiod hstart hmtp hp hearly] at hstate
          refine ⟨_, vToCompute, some b, if_pos hearly, hstate, ?_, hlinked⟩
          rw [AList.lookup_insert, stateFor_early hperiod hstart hmtp hp hearly]
        · obtain ⟨cache', vToCompute', known, hrun, hrest⟩ := ih cache (b :: vToCompute)
            (previous T c b) (rounds_previous hperiod hfuel) h (previous_spec hperiod hp).1
            ⟨hp, rfl, hlinked⟩
          exact ⟨cache', vToCompute', known, (if_neg hearly).trans hrun, hrest⟩

omit hstart hmtp in
/-- The walk forward computes the states of the boundaries, one after the other. -/
theorem walkForward_spec (top : Option ι) : ∀ (vToCompute : List ι) (known : Option ι)
    (cache : Cache ι), Transparent T nTime c cache → Linked T c known vToCompute top →
    ∃ cache', walkForward T nTime c vToCompute (stateFor T nTime c known) cache =
      some (stateFor T nTime c top, cache') ∧ Transparent T nTime c cache' := by
  intro vToCompute
  induction vToCompute with
  | nil =>
    intro known cache h hlinked
    obtain rfl : known = top := hlinked
    exact ⟨cache, rfl, h⟩
  | cons b vToCompute ih =>
    intro known cache h hlinked
    obtain ⟨hb, rfl, hrest⟩ := hlinked
    obtain ⟨cache', hrun, h'⟩ := ih (some b) _ (h.insert (some b)) hrest
    refine ⟨cache', ?_, h'⟩
    rw [walkForward, stateNext_eq hperiod _ hb, ← stateFor_eq_next hperiod hb]
    exact hrun

/-- One query. -/
theorem getStateFor_spec (h : Transparent T nTime c cache) (pindexPrev : Option ι) :
    ∃ cache', getStateFor T nTime c pindexPrev cache =
      some (stateFor T nTime c pindexPrev, cache') ∧ Transparent T nTime c cache' := by
  obtain ⟨cache₁, vToCompute, known, hback, h₁, hknown, hlinked⟩ :=
    walkBack_spec hperiod hstart hmtp (boundary T c pindexPrev) _ cache [] _ le_rfl h
      (isBoundary_boundary hperiod pindexPrev) rfl
  obtain ⟨cache', hforward, h'⟩ := walkForward_spec hperiod _ vToCompute known cache₁ h₁ hlinked
  refine ⟨cache', ?_, h'⟩
  rw [getStateFor, hback, Option.bind_eq_bind, Option.bind_some]
  simp only [hknown, Option.bind_eq_bind, Option.bind_some]
  rw [hforward, stateFor_boundary hperiod]

/-- Several queries. -/
theorem run_eq (queries : List (Option ι)) (h : Transparent T nTime c cache) :
    ∃ cache', run T nTime c queries cache =
      some (queries.map (stateFor T nTime c), cache') ∧ Transparent T nTime c cache' := by
  induction queries generalizing cache with
  | nil => exact ⟨cache, rfl, h⟩
  | cons pindexPrev queries ih =>
    obtain ⟨cache₁, hquery, h₁⟩ := getStateFor_spec hperiod hstart hmtp h pindexPrev
    obtain ⟨cache', hrest, h'⟩ := ih h₁
    refine ⟨cache', ?_, h'⟩
    rw [run, hquery, Option.bind_eq_bind, Option.bind_some]
    simp only [hrest, Option.bind_eq_bind, Option.bind_some, List.map_cons]

end

/-! ## Periods -/

omit [DecidableEq ι] in
/-- A boundary on one branch is told by the number of its period. -/
theorem boundary_eq_of_le (hperiod : 1 ≤ c.period) {x y : ι} (h : T.forest.Le x y)
    (hx : IsBoundary T c (some x))
    (hsame : periodOf T c (some x) = periodOf T c (some y)) : boundary T c (some y) = some x := by
  have hdecompose := Int.mul_ediv_add_emod (T.nHeight x + 1 : ℤ) c.period
  rw [hx x rfl] at hdecompose
  rcases boundary_some_cases (T := T) hperiod y with ⟨y', hy', hle, hheight⟩ | ⟨-, hzero⟩
  · rw [hy']
    change (T.nHeight x + 1 : ℤ) / c.period = (T.nHeight y + 1) / c.period at hsame
    rw [← hsame] at hheight
    have hheights : T.forest.height y' = T.forest.height x := by
      change T.nHeight y' = T.nHeight x
      omega
    exact congrArg some ((hle.total h hheights.le).eq_of_height hheights.ge)
  · change (T.nHeight x + 1 : ℤ) / c.period = (T.nHeight y + 1) / c.period at hsame
    rw [hsame, hzero, Int.mul_zero] at hdecompose
    omega

omit [DecidableEq ι] in
/-- On one branch the number of the period tells the boundary. -/
theorem boundary_eq_of_periodOf (hperiod : 1 ≤ c.period) {p q : Option ι} (h : Before T p q)
    (hsame : periodOf T c p = periodOf T c q) : boundary T c p = boundary T c q := by
  have hboundary := isBoundary_boundary (T := T) hperiod p
  have hperiods := periodOf_boundary (T := T) hperiod p
  cases hp : boundary T c p with
  | some x =>
    cases p with
    | none => cases hp
    | some b =>
      obtain ⟨b', rfl, hle⟩ := h b rfl
      rcases boundary_some_cases (T := T) hperiod b with ⟨x', hx', hxb, -⟩ | ⟨hnone, -⟩
      · rw [hp] at hx' hboundary hperiods
        obtain rfl := Option.some.inj hx'
        exact (boundary_eq_of_le hperiod (hxb.trans hle) hboundary (hperiods.trans hsame)).symm
      · rw [hp] at hnone
        cases hnone
  | none =>
    rw [hp] at hperiods
    have hzero : periodOf T c q = 0 := by
      rw [← hsame, ← hperiods]
      rfl
    cases q with
    | none => rfl
    | some y =>
      rcases boundary_some_cases (T := T) hperiod y with ⟨y', hy', -, hheight⟩ | ⟨hnone, -⟩
      · change (T.nHeight y + 1 : ℤ) / c.period = 0 at hzero
        rw [hzero, Int.mul_zero] at hheight
        omega
      · exact hnone.symm

variable (nTime) in
omit [DecidableEq ι] in
/-- The state of a period comes from the period before. -/
theorem stateFor_succ (hperiod : 1 ≤ c.period) {p q : Option ι} (h : Before T p q)
    (hsucc : periodOf T c q = periodOf T c p + 1) :
    ∃ b, stateFor T nTime c q = next T nTime c (stateFor T nTime c p) b := by
  have hboundary := isBoundary_boundary (T := T) hperiod q
  have hnonneg := periodOf_nonneg (T := T) hperiod p
  cases q with
  | none =>
    change (0 : ℤ) = _ at hsucc
    omega
  | some y =>
    rcases boundary_some_cases (T := T) hperiod y with ⟨b, hb, hle, -⟩ | ⟨-, hzero⟩
    · have hperiods := periodOf_boundary (T := T) hperiod (some y)
      rw [hb] at hboundary hperiods
      obtain ⟨-, hprevious⟩ := previous_spec hperiod hboundary
      refine ⟨b, ?_⟩
      rw [← stateFor_boundary hperiod (some y), hb, stateFor_eq_next hperiod hboundary]
      refine congrArg (fun state => next T nTime c state b) ?_
      rw [← stateFor_boundary hperiod (previous T c b), ← stateFor_boundary hperiod p]
      refine congrArg (stateFor T nTime c) ?_
      -- the two are on the branch of the later block
      have hsame : periodOf T c p = periodOf T c (previous T c b) := by omega
      have hbefore : Before T p (some y) := h
      have hbefore' : Before T (previous T c b) (some y) := by
        intro x hx
        exact ⟨y, rfl, (BlockIndex.getAncestorAt_eq_some_iff.mp hx).1.trans hle⟩
      symm
      cases p with
      | none =>
        exact boundary_eq_of_periodOf hperiod (fun x hx => absurd hx (Option.some_ne_none x).symm)
          hsame
      | some x =>
        cases hx' : previous T c b with
        | none =>
          rw [hx'] at hsame
          exact (boundary_eq_of_periodOf hperiod
            (fun z hz => absurd hz (Option.some_ne_none z).symm) hsame.symm).symm
        | some x' =>
          rw [hx'] at hsame hbefore'
          obtain ⟨y₁, hy₁, hxy⟩ := hbefore x rfl
          obtain rfl := Option.some.inj hy₁
          obtain ⟨y₂, hy₂, hxy'⟩ := hbefore' x' rfl
          obtain rfl := Option.some.inj hy₂
          rcases hxy.comparable hxy' with hle' | hle'
          · exact boundary_eq_of_periodOf hperiod
              (fun z hz => ⟨x', rfl, Option.some.inj hz ▸ hle'⟩) hsame
          · exact (boundary_eq_of_periodOf hperiod
              (fun z hz => ⟨x, rfl, Option.some.inj hz ▸ hle'⟩) hsame.symm).symm
    · change (T.nHeight y + 1 : ℤ) / c.period = _ at hsucc
      omega

/-- **The cache of version bits.**  Any queries that share a cache get the states of the recursion
over the periods, so their order does not matter; on one branch all blocks of a period have the same
state, and after a period that is locked in comes an active one. -/
theorem run_transparent (T : BlockIndex ι) (nTime : ι → UInt32) (c : Checker ι)
    (hperiod : 1 ≤ c.period) (hstart : c.beginTime ≤ c.endTime)
    (hmtp : ∀ b p, T.pprev b = some p →
      getMedianTimePast T nTime p ≤ getMedianTimePast T nTime b) :
    (∀ b, (∃ b', boundary T c (some b) = some b' ∧ T.forest.Le b' b ∧
        (T.nHeight b' + 1 : ℤ) = c.period * ((T.nHeight b + 1) / c.period)) ∨
      (boundary T c (some b) = none ∧ (T.nHeight b + 1 : ℤ) / c.period = 0)) ∧
    (∀ queries : List (Option ι), ∃ cache,
      run T nTime c queries ∅ = some (queries.map (stateFor T nTime c), cache)) ∧
    (∀ p q, Before T p q → periodOf T c p = periodOf T c q →
      stateFor T nTime c p = stateFor T nTime c q) ∧
    ∀ p q, Before T p q → periodOf T c q = periodOf T c p + 1 →
      stateFor T nTime c p = .lockedIn → stateFor T nTime c q = .active := by
  refine ⟨boundary_some_cases hperiod, ?_, ?_, ?_⟩
  · intro queries
    have hempty : Transparent T nTime c (∅ : Cache ι) := by
      intro key state hlookup
      cases hlookup
    obtain ⟨cache, hrun, -⟩ := run_eq hperiod hstart hmtp queries hempty
    exact ⟨cache, hrun⟩
  · intro p q hbefore hsame
    rw [← stateFor_boundary hperiod p, ← stateFor_boundary hperiod q,
      boundary_eq_of_periodOf hperiod hbefore hsame]
  · intro p q hbefore hsucc hlocked
    obtain ⟨b, hstate⟩ := stateFor_succ nTime hperiod hbefore hsucc
    rw [hstate, hlocked, next]

end

/-- A block and the genesis block, and a deployment that starts with the first of them. -/
def twoBlocks : BlockIndex Bool :=
  BlockIndex.unlinked
    { parent := fun b => if b then some false else none
      height := fun b => if b then 1 else 0
      height_root := by decide
      height_child := by decide } fun _ => 0

def twoBlocksChecker : Checker Bool := ⟨fun _ => true, 0, 10, 1, 1⟩

theorem run_transparent_twoBlocks : ∃ cache,
    run twoBlocks (fun _ => 0) twoBlocksChecker [some true, none, some false] ∅ =
      some ([some true, none, some false].map
        (stateFor twoBlocks (fun _ => 0) twoBlocksChecker), cache) :=
  (run_transparent twoBlocks (fun _ => 0) twoBlocksChecker (by decide) (by decide)
    (by decide)).2.1 [some true, none, some false]

end VersionBits
