/-
# The counters of blocks in flight

`ValidationEnginePrivate` counts the `BlockValidationState` objects that are alive
(`libs/server/validation/BlockValidation.cpp`, `Engine.cpp`): `headersInFlight` those that are
checking a header and are not parked in `orphanBlocks`, `blocksInFlight` those that are checking
a block.  `addBlock`, `findMoreJobs` and the adoption of orphans raise a counter, and parking and
the destructor lower one; the destructor goes by the flag `m_checkingHeader`.

`findMoreJobs` raises `blocksInFlight` before it makes the object, and sets the flag only after
it has loaded the block.  When the block does not load, the object goes away with the flag of a
header, and one unit moves from one counter to the other for good (`not_counted_noData`).

`always_counted_iff` says that the counters are right along a run if and only if every block
that `findMoreJobs` picks loads.
-/
import Hub.Runs
import Mathlib.Data.Finset.Card
import Mathlib.Data.Int.Notation

namespace Validation

/-- An entry of the headers chain as `findMoreJobs` sees it: the flag `BLOCK_HAVE_DATA`, and
whether `load` returns a full block. -/
structure Slot where
  haveData : Bool
  loads : Bool
  deriving DecidableEq

/-- The `BlockValidationState` objects, by number.  The headers chain, `lastFullBlockScheduled`
and the height of the active chain are as other parts of the engine leave them. -/
structure InFlight where
  live : Finset ℕ
  made : ℕ
  /-- `m_checkingHeader`. -/
  checkingHeader : ℕ → Bool
  /-- `m_blockIndex` is set. -/
  hasIndex : ℕ → Bool
  orphanBlocks : List ℕ
  headersInFlight : ℤ
  blocksInFlight : ℤ
  headerChain : List Slot
  lastFullBlockScheduled : ℤ
  height : ℤ

namespace InFlight

/-! ## The code -/

/-- The constructor of `BlockValidationState`. -/
def construct (s : InFlight) : InFlight :=
  { s with
    live := insert s.made s.live
    made := s.made + 1
    checkingHeader := Function.update s.checkingHeader s.made true
    hasIndex := Function.update s.hasIndex s.made false }

/-- `Engine::addBlock`. -/
def addBlock (s : InFlight) : InFlight :=
  construct { s with headersInFlight := s.headersInFlight + 1 }

/-- `blockLanded` on `m_checkingHeader`. -/
def blockLanded (s : InFlight) (checkingHeader : Bool) : InFlight :=
  if checkingHeader then { s with headersInFlight := s.headersInFlight - 1 }
  else { s with blocksInFlight := s.blocksInFlight - 1 }

/-- The destructor of `BlockValidationState`. -/
def destruct (s : InFlight) (i : ℕ) : InFlight :=
  blockLanded { s with live := s.live.erase i } (s.checkingHeader i)

/-- `blockHeaderValidated` on an object whose block has no known parent, or which lets out
`adoptees`; `none` is the assertion on `m_blockIndex`. -/
def blockHeaderValidated (s : InFlight) (i : ℕ) (isOrphan : Bool) (adoptees : List ℕ) :
    Option InFlight :=
  if s.hasIndex i then none
  else
    let s := { s with hasIndex := Function.update s.hasIndex i true }
    if isOrphan then
      some (blockLanded { s with orphanBlocks := s.orphanBlocks ++ [i] } true)
    else
      some { s with
        orphanBlocks := s.orphanBlocks.filter (· ∉ adoptees)
        headersInFlight := s.headersInFlight + adoptees.length }

/-- `index->nStatus ^= BLOCK_HAVE_DATA`. -/
def dropData (s : InFlight) (k : ℕ) : InFlight :=
  { s with headerChain := s.headerChain.modify k fun b => { b with haveData := false } }

/-- The loop of `findMoreJobs`; the first argument bounds the rounds. -/
def findMoreJobsLoop (limit : ℤ) : ℕ → InFlight → InFlight
  | 0, s => s
  | fuel + 1, s =>
      let k := (s.lastFullBlockScheduled + 1).toNat
      match s.headerChain[k]? with
      | none => s
      | some slot =>
          if !slot.haveData then s
          else if s.blocksInFlight ≥ limit then s
          else
            let i := s.made
            let s := construct { s with blocksInFlight := s.blocksInFlight + 1 }
            let s := { s with hasIndex := Function.update s.hasIndex i true }
            if !slot.loads then
              -- the object goes out of scope
              destruct (dropData s k) i
            else
              findMoreJobsLoop limit fuel { s with
                checkingHeader := Function.update s.checkingHeader i false
                lastFullBlockScheduled := s.lastFullBlockScheduled + 1 }

/-- `findMoreJobs`, with `blocksInFlightLimit()`. -/
def findMoreJobs (limit : ℤ) (s : InFlight) : InFlight :=
  let s := if s.lastFullBlockScheduled = -1 then
    { s with lastFullBlockScheduled := max 1 s.height } else s
  findMoreJobsLoop limit (s.headerChain.length + 1) s

/-! ## Runs -/

inductive Event
  | addBlock
  | blockHeaderValidated (i : ℕ) (isOrphan : Bool) (adoptees : List ℕ)
  | findMoreJobs
  /-- The last reference to an object goes away. -/
  | release (i : ℕ)
  /-- Other parts of the engine. -/
  | update (headerChain : List Slot) (lastFullBlockScheduled height : ℤ)

def step (limit : ℤ) (s : InFlight) : Event → Option InFlight
  | .addBlock => some s.addBlock
  | .blockHeaderValidated i isOrphan adoptees => s.blockHeaderValidated i isOrphan adoptees
  | .findMoreJobs => some (s.findMoreJobs limit)
  | .release i => some (s.destruct i)
  | .update headerChain lastFullBlockScheduled height =>
      some { s with
        headerChain := headerChain
        lastFullBlockScheduled := lastFullBlockScheduled
        height := height }

/-- Only objects that are alive are used, a header is checked once, what is adopted is parked,
and what is parked has a reference. -/
def Legal (s : InFlight) : Event → Prop
  | .addBlock => True
  | .blockHeaderValidated i isOrphan adoptees =>
      i ∈ s.live ∧ s.hasIndex i = false ∧ adoptees.Nodup ∧ (∀ a ∈ adoptees, a ∈ s.orphanBlocks) ∧
        (isOrphan = true → adoptees = [])
  | .findMoreJobs => True
  | .release i => i ∈ s.live ∧ i ∉ s.orphanBlocks
  | .update _ lastFullBlockScheduled _ => -1 ≤ lastFullBlockScheduled

/-- An engine without blocks. -/
def initial : InFlight where
  live := ∅
  made := 0
  checkingHeader := fun _ => true
  hasIndex := fun _ => false
  orphanBlocks := []
  headersInFlight := 0
  blocksInFlight := 0
  headerChain := []
  lastFullBlockScheduled := -1
  height := -1

/-- The objects that `headersInFlight` is to count. -/
def headers (s : InFlight) : Finset ℕ :=
  s.live.filter fun i => s.checkingHeader i = true ∧ i ∉ s.orphanBlocks

/-- The objects that `blocksInFlight` is to count. -/
def blocks (s : InFlight) : Finset ℕ := s.live.filter fun i => s.checkingHeader i = false

/-- `waitValidationFinished` returns. -/
def Finished (s : InFlight) : Prop := ¬ (s.headersInFlight > 0 ∨ s.blocksInFlight > 0)

/-- The counters count, and without objects nothing waits. -/
def Counted (s : InFlight) : Prop :=
  (s.blocksInFlight = s.blocks.card ∧ s.headersInFlight = s.headers.card) ∧
    (s.live = ∅ → s.headersInFlight = 0 ∧ s.blocksInFlight = 0 ∧ Finished s)

/-- The next entry that `findMoreJobs` looks at. -/
def nextJob (s : InFlight) : ℕ :=
  ((if s.lastFullBlockScheduled = -1 then max 1 s.height else s.lastFullBlockScheduled) + 1).toNat

/-- Every block from `k` on that has data, as have all since `k`, loads, as long as there is room. -/
def JobsLoad (headerChain : List Slot) (k : ℕ) (room : ℤ) : Prop :=
  ∀ j : ℕ, (j : ℤ) < room →
    (∀ i ≤ j, ∃ b, headerChain[k + i]? = some b ∧ b.haveData = true) →
    ∀ b, headerChain[k + j]? = some b → b.loads = true

/-- The blocks that `findMoreJobs` picks load. -/
def Loads (limit : ℤ) (s : InFlight) : Event → Prop
  | .findMoreJobs => JobsLoad s.headerChain s.nextJob (limit - s.blocksInFlight)
  | _ => True

instance : DecidablePred Finished := fun s =>
  inferInstanceAs (Decidable (¬ (s.headersInFlight > 0 ∨ s.blocksInFlight > 0)))

instance : DecidablePred Counted := fun s => inferInstanceAs (Decidable
  ((s.blocksInFlight = s.blocks.card ∧ s.headersInFlight = s.headers.card) ∧
    (s.live = ∅ → s.headersInFlight = 0 ∧ s.blocksInFlight = 0 ∧ Finished s)))

instance (s : InFlight) : ∀ e : Event, Decidable (Legal s e)
  | .addBlock => .isTrue trivial
  | .blockHeaderValidated i isOrphan adoptees => inferInstanceAs (Decidable
      (i ∈ s.live ∧ s.hasIndex i = false ∧ adoptees.Nodup ∧ (∀ a ∈ adoptees, a ∈ s.orphanBlocks) ∧
        (isOrphan = true → adoptees = [])))
  | .findMoreJobs => .isTrue trivial
  | .release i => inferInstanceAs (Decidable (i ∈ s.live ∧ i ∉ s.orphanBlocks))
  | .update _ lastFullBlockScheduled _ => inferInstanceAs (Decidable (-1 ≤ lastFullBlockScheduled))

/-! ## The invariant -/

/-- The counters count the objects. -/
structure Inv (s : InFlight) : Prop where
  blocks : s.blocksInFlight = s.blocks.card
  headers : s.headersInFlight = s.headers.card
  fresh : ∀ i ∈ s.live, i < s.made
  nodup : s.orphanBlocks.Nodup
  parked : ∀ i ∈ s.orphanBlocks, i ∈ s.live ∧ s.checkingHeader i = true ∧ s.hasIndex i = true
  indexed : ∀ i ∈ s.live, s.checkingHeader i = false → s.hasIndex i = true
  scheduled : -1 ≤ s.lastFullBlockScheduled

variable {s : InFlight} {i : ℕ} {limit : ℤ}

theorem Inv.counted (h : Inv s) : Counted s := by
  refine ⟨⟨h.blocks, h.headers⟩, fun hlive => ?_⟩
  have hb : s.blocksInFlight = 0 := by rw [h.blocks, InFlight.blocks, hlive]; rfl
  have hh : s.headersInFlight = 0 := by rw [h.headers, InFlight.headers, hlive]; rfl
  exact ⟨hh, hb, by rw [Finished]; omega⟩

theorem Inv.not_mem_live (h : Inv s) : s.made ∉ s.live := fun hmem =>
  Nat.lt_irrefl _ (h.fresh _ hmem)

theorem Inv.not_parked (h : Inv s) : s.made ∉ s.orphanBlocks := fun hmem =>
  h.not_mem_live (h.parked _ hmem).1

theorem inv_initial : Inv initial where
  blocks := by simp [initial, InFlight.blocks]
  headers := by simp [initial, InFlight.headers]
  fresh := by simp [initial]
  nodup := List.nodup_nil
  parked := by simp [initial]
  indexed := by simp [initial]
  scheduled := by simp [initial]

/-! ## Steps -/

/-- What a new object adds to those that are there. -/
theorem filter_insert_congr {live : Finset ℕ} {p q : ℕ → Prop} [DecidablePred p] [DecidablePred q]
    (hpq : ∀ j ∈ live, p j ↔ q j) (n : ℕ) : (insert n live).filter p =
      if p n then insert n (live.filter q) else live.filter q := by
  rw [Finset.filter_insert, Finset.filter_congr hpq]

/-- A new object that checks a header. -/
theorem Inv.addBlock (h : Inv s) : Inv s.addBlock := by
  have hne : ∀ j ∈ s.live, j ≠ s.made := fun j hj => Nat.ne_of_lt (h.fresh j hj)
  have hold : ∀ j ∈ s.live, s.addBlock.checkingHeader j = s.checkingHeader j := fun j hj =>
    Function.update_of_ne (hne j hj) _ _
  have hself : s.addBlock.checkingHeader s.made = true := Function.update_self _ _ _
  refine ⟨?_, ?_, ?_, h.nodup, ?_, ?_, h.scheduled⟩
  · have heq : s.addBlock.blocks = s.blocks := by
      show (insert s.made s.live).filter _ = _
      rw [filter_insert_congr (q := fun j => s.checkingHeader j = false)
        (fun j hj => by rw [hold j hj]), if_neg (by rw [hself]; simp)]
      rfl
    rw [heq]
    exact h.blocks
  · have heq : s.addBlock.headers = insert s.made s.headers := by
      show (insert s.made s.live).filter _ = _
      rw [filter_insert_congr (q := fun j => s.checkingHeader j = true ∧ j ∉ s.orphanBlocks)
        (fun j hj => by rw [hold j hj]; rfl), if_pos ⟨hself, h.not_parked⟩]
      rfl
    have hnot : s.made ∉ s.headers := fun hmem => h.not_mem_live (Finset.mem_filter.mp hmem).1
    rw [heq, Finset.card_insert_of_notMem hnot]
    show s.headersInFlight + 1 = _
    rw [h.headers]
    push_cast
    rfl
  · intro j hj
    show j < s.made + 1
    rcases Finset.mem_insert.mp hj with rfl | hj
    · exact Nat.lt_succ_self _
    · exact Nat.lt_succ_of_lt (h.fresh j hj)
  · intro j hj
    obtain ⟨hlive, hcheck, hindex⟩ := h.parked j hj
    refine ⟨Finset.mem_insert_of_mem hlive, (hold j hlive).trans hcheck, ?_⟩
    exact (Function.update_of_ne (hne j hlive) _ _).trans hindex
  · intro j hj hcheck
    rcases Finset.mem_insert.mp hj with rfl | hj
    · rw [hself] at hcheck
      cases hcheck
    · rw [hold j hj] at hcheck
      exact (Function.update_of_ne (hne j hj) _ _).trans (h.indexed j hj hcheck)

/-- The destructor. -/
theorem Inv.destruct (h : Inv s) (hlive : i ∈ s.live) (hparked : i ∉ s.orphanBlocks) :
    Inv (s.destruct i) := by
  have hblocks : (s.live.erase i).filter (fun j => s.checkingHeader j = false)
      = s.blocks.erase i := Finset.filter_erase ..
  have hheaders : (s.live.erase i).filter (fun j => s.checkingHeader j = true ∧ j ∉ s.orphanBlocks)
      = s.headers.erase i := Finset.filter_erase ..
  have hrest : (∀ j ∈ s.live.erase i, j < s.made) ∧
      (∀ j ∈ s.orphanBlocks, j ∈ s.live.erase i ∧ s.checkingHeader j = true ∧ s.hasIndex j = true) ∧
      ∀ j ∈ s.live.erase i, s.checkingHeader j = false → s.hasIndex j = true := by
    refine ⟨fun j hj => h.fresh j (Finset.mem_of_mem_erase hj), fun j hj => ?_,
      fun j hj => h.indexed j (Finset.mem_of_mem_erase hj)⟩
    obtain ⟨hjl, hcheck, hindex⟩ := h.parked j hj
    exact ⟨Finset.mem_erase.mpr ⟨ne_of_mem_of_not_mem hj hparked, hjl⟩, hcheck, hindex⟩
  unfold InFlight.destruct blockLanded
  cases hcheck : s.checkingHeader i with
  | true =>
    have hmem : i ∈ s.headers := Finset.mem_filter.mpr ⟨hlive, hcheck, hparked⟩
    have hnot : i ∉ s.blocks := fun hb => by
      have := (Finset.mem_filter.mp hb).2
      rw [hcheck] at this
      cases this
    refine ⟨?_, ?_, hrest.1, h.nodup, hrest.2.1, hrest.2.2, h.scheduled⟩
    · show s.blocksInFlight = ((s.live.erase i).filter fun j => s.checkingHeader j = false).card
      rw [hblocks, Finset.erase_eq_of_notMem hnot]
      exact h.blocks
    · show s.headersInFlight - 1 = ((s.live.erase i).filter fun j =>
        s.checkingHeader j = true ∧ j ∉ s.orphanBlocks).card
      rw [hheaders, h.headers, ← Finset.card_erase_add_one hmem]
      push_cast
      omega
  | false =>
    have hmem : i ∈ s.blocks := Finset.mem_filter.mpr ⟨hlive, hcheck⟩
    have hnot : i ∉ s.headers := fun hb => by
      have := (Finset.mem_filter.mp hb).2.1
      rw [hcheck] at this
      cases this
    refine ⟨?_, ?_, hrest.1, h.nodup, hrest.2.1, hrest.2.2, h.scheduled⟩
    · show s.blocksInFlight - 1
        = ((s.live.erase i).filter fun j => s.checkingHeader j = false).card
      rw [hblocks, h.blocks, ← Finset.card_erase_add_one hmem]
      push_cast
      omega
    · show s.headersInFlight = ((s.live.erase i).filter fun j =>
        s.checkingHeader j = true ∧ j ∉ s.orphanBlocks).card
      rw [hheaders, Finset.erase_eq_of_notMem hnot]
      exact h.headers

/-- Parking takes one object out of the count. -/
theorem Inv.park (h : Inv s) (hlive : i ∈ s.live) (hindex : s.hasIndex i = false) :
    ∃ s', s.blockHeaderValidated i true [] = some s' ∧ Inv s' := by
  have hcheck : s.checkingHeader i = true := by
    by_contra hcon
    rw [h.indexed i hlive (by simpa using hcon)] at hindex
    cases hindex
  have hparked : i ∉ s.orphanBlocks := fun hmem => by
    rw [(h.parked i hmem).2.2] at hindex
    cases hindex
  refine ⟨_, by rw [InFlight.blockHeaderValidated, if_neg (by simp [hindex]), if_pos rfl], ?_⟩
  refine ⟨h.blocks, ?_, h.fresh, ?_, ?_, ?_, h.scheduled⟩
  · have heq : s.live.filter (fun j => s.checkingHeader j = true ∧ j ∉ s.orphanBlocks ++ [i])
        = s.headers.erase i := by
      ext j
      simp only [InFlight.headers, Finset.mem_filter, Finset.mem_erase, List.mem_append,
        List.mem_singleton, not_or]
      tauto
    have hmem : i ∈ s.headers := Finset.mem_filter.mpr ⟨hlive, hcheck, hparked⟩
    show s.headersInFlight - 1
      = (s.live.filter fun j => s.checkingHeader j = true ∧ j ∉ s.orphanBlocks ++ [i]).card
    rw [heq, h.headers, ← Finset.card_erase_add_one hmem]
    push_cast
    omega
  · exact List.nodup_append.mpr ⟨h.nodup, List.nodup_singleton i, fun x hx y hy hxy => by
      rw [List.mem_singleton.mp hy] at hxy
      exact hparked (hxy ▸ hx)⟩
  · intro j hj
    rcases List.mem_append.mp hj with hj | hj
    · obtain ⟨hjl, hjc, hji⟩ := h.parked j hj
      refine ⟨hjl, hjc, ?_⟩
      exact (Function.update_of_ne (ne_of_mem_of_not_mem hj hparked) _ _).trans hji
    · rw [List.mem_singleton.mp hj]
      exact ⟨hlive, hcheck, Function.update_self _ _ _⟩
  · intro j hj hjc
    by_cases hji : j = i
    · rw [hji]
      exact Function.update_self _ _ _
    · exact (Function.update_of_ne hji _ _).trans (h.indexed j hj hjc)

/-- Adoption puts the adopted objects back into the count. -/
theorem Inv.adopt {adoptees : List ℕ} (h : Inv s) (hindex : s.hasIndex i = false)
    (hnodup : adoptees.Nodup) (hsub : ∀ a ∈ adoptees, a ∈ s.orphanBlocks) :
    ∃ s', s.blockHeaderValidated i false adoptees = some s' ∧ Inv s' := by
  refine ⟨_, by rw [InFlight.blockHeaderValidated, if_neg (by simp [hindex]), if_neg (by simp)], ?_⟩
  have hupdate : ∀ j, s.hasIndex j = true → Function.update s.hasIndex i true j = true := by
    intro j hj
    by_cases hji : j = i
    · rw [hji]
      exact Function.update_self _ _ _
    · exact (Function.update_of_ne hji _ _).trans hj
  refine ⟨h.blocks, ?_, h.fresh, h.nodup.filter _, fun j hj => ?_, fun j hj hjc => ?_, h.scheduled⟩
  · have heq : s.live.filter (fun j => s.checkingHeader j = true ∧
        j ∉ s.orphanBlocks.filter (· ∉ adoptees)) = s.headers ∪ adoptees.toFinset := by
      ext j
      simp only [InFlight.headers, Finset.mem_filter, Finset.mem_union, List.mem_toFinset,
        List.mem_filter, decide_eq_true_eq]
      have hmem := fun ha => h.parked j (hsub j ha)
      tauto
    have hdisj : Disjoint s.headers adoptees.toFinset := by
      refine Finset.disjoint_left.mpr fun j hj ha => ?_
      exact (Finset.mem_filter.mp hj).2.2 (hsub j (List.mem_toFinset.mp ha))
    show s.headersInFlight + adoptees.length = (s.live.filter fun j =>
      s.checkingHeader j = true ∧ j ∉ s.orphanBlocks.filter (· ∉ adoptees)).card
    rw [heq, Finset.card_union_of_disjoint hdisj, List.toFinset_card_of_nodup hnodup, h.headers]
    push_cast
    rfl
  · obtain ⟨hjl, hjc, hji⟩ := h.parked j (List.mem_of_mem_filter hj)
    exact ⟨hjl, hjc, hupdate j hji⟩
  · exact hupdate j (h.indexed j hj hjc)

/-! ## `findMoreJobs` -/

/-- A new object that checks a block, as `findMoreJobs` leaves it. -/
def schedule (s : InFlight) : InFlight :=
  { s with
    live := insert s.made s.live
    made := s.made + 1
    checkingHeader := Function.update (Function.update s.checkingHeader s.made true) s.made false
    hasIndex := Function.update (Function.update s.hasIndex s.made false) s.made true
    blocksInFlight := s.blocksInFlight + 1
    lastFullBlockScheduled := s.lastFullBlockScheduled + 1 }

theorem Inv.schedule (h : Inv s) : Inv s.schedule := by
  have hne : ∀ j ∈ s.live, j ≠ s.made := fun j hj => Nat.ne_of_lt (h.fresh j hj)
  have hold : ∀ j ∈ s.live, s.schedule.checkingHeader j = s.checkingHeader j := fun j hj => by
    simp [InFlight.schedule, Function.update_of_ne (hne j hj)]
  have hindex : ∀ j ∈ s.live, s.schedule.hasIndex j = s.hasIndex j := fun j hj => by
    simp [InFlight.schedule, Function.update_of_ne (hne j hj)]
  have hself : s.schedule.checkingHeader s.made = false := Function.update_self _ _ _
  refine ⟨?_, ?_, ?_, h.nodup, ?_, ?_, ?_⟩
  · have heq : s.schedule.blocks = insert s.made s.blocks := by
      show (insert s.made s.live).filter _ = _
      rw [filter_insert_congr (q := fun j => s.checkingHeader j = false)
        (fun j hj => by rw [hold j hj]), if_pos hself]
      rfl
    have hnot : s.made ∉ s.blocks := fun hmem => h.not_mem_live (Finset.mem_filter.mp hmem).1
    rw [heq, Finset.card_insert_of_notMem hnot]
    show s.blocksInFlight + 1 = _
    rw [h.blocks]
    push_cast
    rfl
  · have heq : s.schedule.headers = s.headers := by
      show (insert s.made s.live).filter _ = _
      rw [filter_insert_congr (q := fun j => s.checkingHeader j = true ∧ j ∉ s.orphanBlocks)
        (fun j hj => by rw [hold j hj]; rfl), if_neg (by rw [hself]; simp)]
      rfl
    rw [heq]
    exact h.headers
  · intro j hj
    show j < s.made + 1
    rcases Finset.mem_insert.mp hj with rfl | hj
    · exact Nat.lt_succ_self _
    · exact Nat.lt_succ_of_lt (h.fresh j hj)
  · intro j hj
    obtain ⟨hlive, hcheck, hidx⟩ := h.parked j hj
    exact ⟨Finset.mem_insert_of_mem hlive, (hold j hlive).trans hcheck, (hindex j hlive).trans hidx⟩
  · intro j hj hcheck
    rcases Finset.mem_insert.mp hj with rfl | hj
    · exact Function.update_self _ _ _
    · rw [hold j hj] at hcheck
      exact (hindex j hj).trans (h.indexed j hj hcheck)
  · show -1 ≤ s.lastFullBlockScheduled + 1
    have := h.scheduled
    omega

/-- An object whose block does not load moves a unit between the counters. -/
def misfire (s : InFlight) (k : ℕ) : InFlight :=
  { s with
    made := s.made + 1
    checkingHeader := Function.update s.checkingHeader s.made true
    hasIndex := Function.update (Function.update s.hasIndex s.made false) s.made true
    headersInFlight := s.headersInFlight - 1
    blocksInFlight := s.blocksInFlight + 1
    headerChain := s.headerChain.modify k fun b => { b with haveData := false } }

theorem Inv.not_counted_misfire (h : Inv s) (k : ℕ) : ¬ Counted (s.misfire k) := by
  rintro ⟨⟨hblocks, -⟩, -⟩
  have heq : (s.misfire k).blocks = s.blocks := by
    refine Finset.filter_congr fun j hj => ?_
    have hne : j ≠ s.made := Nat.ne_of_lt (h.fresh j hj)
    simp [misfire, Function.update_of_ne hne]
  rw [heq, ← h.blocks] at hblocks
  have : s.blocksInFlight + 1 = s.blocksInFlight := hblocks
  omega

/-- What one round of the loop does. -/
theorem Inv.findMoreJobsLoop_succ (h : Inv s) (fuel : ℕ) :
    findMoreJobsLoop limit (fuel + 1) s =
      match s.headerChain[(s.lastFullBlockScheduled + 1).toNat]? with
      | none => s
      | some slot =>
          if slot.haveData = true ∧ s.blocksInFlight < limit then
            if slot.loads then findMoreJobsLoop limit fuel s.schedule
            else s.misfire (s.lastFullBlockScheduled + 1).toNat
          else s := by
  rw [findMoreJobsLoop]
  cases hslot : s.headerChain[(s.lastFullBlockScheduled + 1).toNat]? with
  | none => rfl
  | some slot =>
    simp only
    by_cases hdata : slot.haveData = true
    · by_cases hroom : s.blocksInFlight < limit
      · have hge : ¬ s.blocksInFlight ≥ limit := by omega
        simp only [hdata, Bool.not_true, Bool.false_eq_true, if_false, hge, hroom, and_self, if_true]
        by_cases hloads : slot.loads = true
        · simp only [hloads, Bool.not_true, Bool.false_eq_true, if_false, if_true]
          rfl
        · have hlive : (insert s.made s.live).erase s.made = s.live :=
            Finset.erase_insert h.not_mem_live
          simp [hloads, InFlight.destruct, blockLanded, construct, dropData, misfire, hlive]
      · have hge : s.blocksInFlight ≥ limit := by omega
        simp only [hdata, Bool.not_true, Bool.false_eq_true, if_false, hge, hroom, and_false, if_true]
    · simp [hdata]

/-- After a block that loads the rest of the blocks has to load. -/
theorem jobsLoad_succ {chain : List Slot} {k : ℕ} {room : ℤ} {slot : Slot}
    (hslot : chain[k]? = some slot) (hdata : slot.haveData = true) (hloads : slot.loads = true) :
    JobsLoad chain k room ↔ JobsLoad chain (k + 1) (room - 1) := by
  constructor
  · intro h j hj hall b hb
    refine h (j + 1) (by push_cast; omega) (fun i hi => ?_) b ?_
    · cases i with
      | zero => exact ⟨slot, hslot, hdata⟩
      | succ i =>
        rw [show k + (i + 1) = k + 1 + i from by omega]
        exact hall i (by omega)
    · rw [show k + (j + 1) = k + 1 + j from by omega]
      exact hb
  · intro h j hj hall b hb
    cases j with
    | zero =>
      obtain rfl := Option.some.inj (hslot.symm.trans hb)
      exact hloads
    | succ j =>
      refine h j (by push_cast at hj; omega) (fun i hi => ?_) b ?_
      · rw [show k + 1 + i = k + (i + 1) from by omega]
        exact hall (i + 1) (by omega)
      · rw [show k + 1 + j = k + (j + 1) from by omega]
        exact hb

/-- **The loop of `findMoreJobs`** keeps the counters exactly when all its blocks load. -/
theorem Inv.findMoreJobsLoop : ∀ (fuel : ℕ) (s : InFlight), Inv s →
    s.headerChain.length < fuel + (s.lastFullBlockScheduled + 1).toNat →
    (JobsLoad s.headerChain (s.lastFullBlockScheduled + 1).toNat (limit - s.blocksInFlight) →
      Inv (InFlight.findMoreJobsLoop limit fuel s)) ∧
    (¬ JobsLoad s.headerChain (s.lastFullBlockScheduled + 1).toNat (limit - s.blocksInFlight) →
      ¬ Counted (InFlight.findMoreJobsLoop limit fuel s)) := by
  intro fuel
  induction fuel with
  | zero =>
    intro s h hfuel
    refine ⟨fun _ => h, fun hnot => absurd ?_ hnot⟩
    intro j _ hall
    obtain ⟨b, hb, -⟩ := hall 0 (Nat.zero_le j)
    rw [List.getElem?_eq_none (by omega)] at hb
    cases hb
  | succ fuel ih =>
    intro s h hfuel
    -- a round that does nothing has nothing to load
    have hstop : (∀ b, s.headerChain[(s.lastFullBlockScheduled + 1).toNat]? = some b →
        ¬ (b.haveData = true ∧ s.blocksInFlight < limit)) →
        JobsLoad s.headerChain (s.lastFullBlockScheduled + 1).toNat (limit - s.blocksInFlight) := by
      intro hno j hj hall
      obtain ⟨b, hb, hdata⟩ := hall 0 (Nat.zero_le j)
      exact absurd ⟨hdata, by omega⟩ (hno b (by simpa using hb))
    rw [h.findMoreJobsLoop_succ]
    cases hslot : s.headerChain[(s.lastFullBlockScheduled + 1).toNat]? with
    | none => exact ⟨fun _ => h, fun hnot => absurd (hstop (by simp [hslot])) hnot⟩
    | some slot =>
      simp only
      split
      · next hgo =>
        split
        · next hloads =>
          have hk : (s.schedule.lastFullBlockScheduled + 1).toNat
              = (s.lastFullBlockScheduled + 1).toNat + 1 := by
            have := h.scheduled
            show (s.lastFullBlockScheduled + 1 + 1).toNat = _
            omega
          have hroom : limit - s.schedule.blocksInFlight = limit - s.blocksInFlight - 1 := by
            show limit - (s.blocksInFlight + 1) = _
            omega
          have hrec := ih s.schedule h.schedule (by
            rw [hk]
            show s.headerChain.length < _
            omega)
          rw [hk, hroom] at hrec
          rw [jobsLoad_succ hslot hgo.1 hloads]
          exact hrec
        · next hloads =>
          refine ⟨fun hall => ?_, fun _ => h.not_counted_misfire _⟩
          refine absurd (hall 0 (by have := hgo.2; push_cast; omega) (fun i hi => ?_) slot ?_) hloads
          · obtain rfl : i = 0 := by omega
            exact ⟨slot, by simpa using hslot, hgo.1⟩
          · simpa using hslot
      · next hgo =>
        refine ⟨fun _ => h, fun hnot => absurd (hstop fun b hb => ?_) hnot⟩
        obtain rfl := Option.some.inj (hslot.symm.trans hb)
        exact hgo

/-- The state in which the loop starts. -/
theorem Inv.findMoreJobs (h : Inv s) :
    (Loads limit s .findMoreJobs → Inv (InFlight.findMoreJobs limit s)) ∧
    (¬ Loads limit s .findMoreJobs → ¬ Counted (InFlight.findMoreJobs limit s)) := by
  unfold InFlight.findMoreJobs Loads nextJob
  by_cases hnew : s.lastFullBlockScheduled = -1
  · have hs : Inv { s with lastFullBlockScheduled := max 1 s.height } :=
      ⟨h.blocks, h.headers, h.fresh, h.nodup, h.parked, h.indexed, by simp⟩
    simp only [hnew, if_true]
    exact hs.findMoreJobsLoop _ _ (by simp only; omega)
  · simp only [hnew, if_false]
    exact h.findMoreJobsLoop _ _ (by omega)

/-! ## Runs -/

/-- **The counters.**  They are right in all states of a run if and only if every block that
`findMoreJobs` picks loads. -/
theorem always_counted_iff (limit : ℤ) (es : List Event)
    (hl : Runs.Each (step limit) Legal initial es) :
    Runs.Always (step limit) Counted initial es ↔
      Runs.Each (step limit) (Loads limit) initial es := by
  refine Runs.always_iff_each (I := Inv) (fun s h => h.counted) ?_ ?_ es initial inv_initial hl
  · intro s e h hlegal hc
    cases e with
    | addBlock => exact ⟨_, rfl, h.addBlock⟩
    | blockHeaderValidated i isOrphan adoptees =>
      obtain ⟨hlive, hindex, hnodup, hsub, horphan⟩ := hlegal
      cases isOrphan with
      | true =>
        obtain rfl := horphan rfl
        exact h.park hlive hindex
      | false => exact h.adopt hindex hnodup hsub
    | findMoreJobs => exact ⟨_, rfl, h.findMoreJobs.1 hc⟩
    | release i => exact ⟨_, rfl, h.destruct hlegal.1 hlegal.2⟩
    | update chain last height =>
      exact ⟨_, rfl, h.blocks, h.headers, h.fresh, h.nodup, h.parked, h.indexed, hlegal⟩
  · intro s e s' h hlegal hc hstep
    cases e with
    | findMoreJobs =>
      obtain rfl := Option.some.inj hstep
      exact h.findMoreJobs.2 hc
    | addBlock => exact absurd trivial hc
    | blockHeaderValidated i isOrphan adoptees => exact absurd trivial hc
    | release i => exact absurd trivial hc
    | update chain last height => exact absurd trivial hc

/-- A headers chain whose block at height 2 has no data in spite of its flag. -/
def noData : List Event := [.update [⟨true, true⟩, ⟨true, true⟩, ⟨true, false⟩] (-1) 1, .findMoreJobs]

/-- The counters are off by one for ever. -/
theorem not_counted_noData : Runs.Each (step 4) Legal initial noData ∧
    ¬ Runs.Always (step 4) Counted initial noData := by
  constructor
  · decide +kernel
  · decide +kernel

/-- Blocks that are added, parked, adopted, found and finished. -/
def parkedAndFound : List Event :=
  [.addBlock, .addBlock, .blockHeaderValidated 0 true [], .blockHeaderValidated 1 false [0],
    .update [⟨true, true⟩, ⟨true, true⟩, ⟨true, true⟩] (-1) 1, .findMoreJobs, .release 2, .release 0,
    .release 1]

theorem loads_parkedAndFound : Runs.Each (step 4) Legal initial parkedAndFound ∧
    Runs.Each (step 4) (Loads 4) initial parkedAndFound := by
  have hlegal : Runs.Each (step 4) Legal initial parkedAndFound := by decide +kernel
  exact ⟨hlegal, (always_counted_iff 4 parkedAndFound hlegal).mp (by decide +kernel)⟩

end InFlight

end Validation
