/-
# What `findMoreJobs` schedules

`findMoreJobs` (`libs/server/validation/BlockValidation.cpp`) takes up the blocks of the headers
chain that follow `lastFullBlockScheduled`, as long as they have data.  When the counter is not set,
it starts behind the tip of the active chain, but not below height 2.

The blocks are consecutive, and each but the first meets its parent among the blocks that are being
validated.  The first one has the tip as its parent, unless the active chain has not come to height
1: then nobody has to have taken up the block at height 1, and the one above it waits in vain.
-/
import Hub.ActiveChain
import Hub.Pipeline

namespace Validation

namespace Pipeline

variable {ι : Type} [DecidableEq ι] {T : BlockIndex ι} {s t u : Pipeline ι} {i : ℕ} {b p : ι}

/-! ## Objects have numbers below `made` -/

/-- All numbers that are in use belong to objects. -/
structure Bounded (s : Pipeline ι) : Prop where
  mapped : ∀ b i, s.blocksBeingValidated b = some i → i < s.made
  posted : ∀ j ∈ s.jobs, j.task < s.made
  parked : ∀ o ∈ s.orphanBlocks, o < s.made
  children : ∀ i, ∀ c ∈ (s.tasks i).chainChildren, c < s.made

omit [DecidableEq ι] in
theorem Bounded.congr (h : Bounded s) (hmade : t.made = s.made)
    (hmap : t.blocksBeingValidated = s.blocksBeingValidated) (hjobs : t.jobs = s.jobs)
    (horphans : t.orphanBlocks = s.orphanBlocks)
    (hchildren : ∀ i, (t.tasks i).chainChildren = (s.tasks i).chainChildren) : Bounded t where
  mapped := by
    rw [hmap, hmade]
    exact h.mapped
  posted := by
    rw [hjobs, hmade]
    exact h.posted
  parked := by
    rw [horphans, hmade]
    exact h.parked
  children i := by
    rw [hchildren, hmade]
    exact h.children i

omit [DecidableEq ι] in
/-- A change of the bits of an object. -/
theorem Bounded.modify (h : Bounded s) {f : Task ι → Task ι}
    (hf : ∀ t, (f t).chainChildren = t.chainChildren) : Bounded (s.modify i f) :=
  h.congr rfl rfl rfl rfl fun k =>
    tasks_modify_ind (P := fun t => t.chainChildren = (s.tasks k).chainChildren)
      (fun hk => hk ▸ hf _) fun _ => rfl

omit [DecidableEq ι] in
theorem Bounded.addChild (h : Bounded s) {c : ℕ} (hc : c < s.made) :
    Bounded (s.modify i (Task.addChild c)) where
  mapped := h.mapped
  posted := h.posted
  parked := h.parked
  children k := by
    apply tasks_modify_ind (P := fun t => ∀ c ∈ t.chainChildren, c < s.made)
    · intro _ x hx
      rcases List.mem_append.mp hx with hx | hx
      · exact h.children i x hx
      · rw [List.mem_singleton.mp hx]
        exact hc
    · exact fun _ => h.children k

omit [DecidableEq ι] in
theorem Bounded.post (h : Bounded s) {j : Job} (hj : j.task < s.made) : Bounded (s.post j) where
  mapped := h.mapped
  posted j' hj' := by
    rcases List.mem_append.mp hj' with hj' | hj'
    · exact h.posted j' hj'
    · rw [List.mem_singleton.mp hj']
      exact hj
  parked := h.parked
  children := h.children

theorem Bounded.insertBlock (h : Bounded s) (hi : i < s.made) : Bounded (s.insertBlock b i) := by
  unfold Pipeline.insertBlock
  split_ifs
  · refine ⟨fun x k hx => ?_, h.posted, h.parked, h.children⟩
    have hx' : Function.update s.blocksBeingValidated b (some i) x = some k := hx
    by_cases hxb : x = b
    · rw [hxb, Function.update_self] at hx'
      rw [← Option.some.inj hx']
      exact hi
    · rw [Function.update_of_ne hxb] at hx'
      exact h.mapped x k hx'
  · exact h

omit [DecidableEq ι] in
theorem Bounded.meetParent (h : Bounded s) (hi : i < s.made) (valid : Bool) :
    Bounded (s.meetParent i p valid) := by
  unfold Pipeline.meetParent
  split
  · exact h.addChild hi
  · split_ifs
    · exact h.modify fun _ => rfl
    · exact h

omit [DecidableEq ι] in
/-- A new object. -/
theorem Bounded.make (h : Bounded s) {task : Task ι} (hchildren : task.chainChildren = []) :
    Bounded { s with made := s.made + 1, tasks := Function.update s.tasks s.made task } where
  mapped b i hi := Nat.lt_succ_of_lt (h.mapped b i hi)
  posted j hj := Nat.lt_succ_of_lt (h.posted j hj)
  parked o ho := Nat.lt_succ_of_lt (h.parked o ho)
  children i c hc := by
    apply Nat.lt_succ_of_lt
    by_cases hi : i = s.made
    · subst hi
      have hnil : c ∈ task.chainChildren := by
        rw [← Function.update_self s.made task s.tasks]
        exact hc
      rw [hchildren] at hnil
      exact absurd hnil List.not_mem_nil
    · apply h.children i
      rw [← Function.update_of_ne hi task s.tasks]
      exact hc

/-! ## A round of the loop -/

/-- `t` comes from `s` by rounds of the loop. -/
structure Extends (s t : Pipeline ι) : Prop where
  made : s.made ≤ t.made
  db : t.db = s.db
  chainTx : t.chainTx = s.chainTx
  haveData : t.haveData = s.haveData
  last : t.lastFullBlockScheduled = s.lastFullBlockScheduled + ((t.made : ℤ) - s.made)
  map : ∀ p q, s.blocksBeingValidated p = some q → t.blocksBeingValidated p = some q
  tasks : ∀ i < s.made, Task.Grows (s.tasks i) (t.tasks i)

omit [DecidableEq ι] in
theorem Extends.refl (s : Pipeline ι) : Extends s s :=
  ⟨le_rfl, rfl, rfl, rfl, by omega, fun _ _ h => h, fun _ _ => Task.Grows.refl _⟩

omit [DecidableEq ι] in
theorem Extends.trans (h : Extends s t) (h' : Extends t u) : Extends s u where
  made := h.made.trans h'.made
  db := h'.db.trans h.db
  chainTx := h'.chainTx.trans h.chainTx
  haveData := h'.haveData.trans h.haveData
  last := by
    rw [h'.last, h.last]
    omega
  map p q hq := h'.map p q (h.map p q hq)
  tasks i hi := (h.tasks i hi).trans (h'.tasks i (lt_of_lt_of_le hi h.made))

/-- The object is among the children of the object that is being validated for its parent. -/
def Registered (T : BlockIndex ι) (s : Pipeline ι) (i : ℕ) : Prop :=
  ∃ p q, T.pprev (s.block i) = some p ∧ s.blocksBeingValidated p = some q ∧
    i ∈ (s.tasks q).chainChildren

omit [DecidableEq ι] in
/-- An object that is registered stays so. -/
theorem Registered.extends (h : Registered T s i) (hi : i < s.made) (hs : Bounded s)
    (ht : Extends s t) : Registered T t i := by
  obtain ⟨p, q, hp, hq, hmem⟩ := h
  refine ⟨p, q, ?_, ht.map p q hq, (ht.tasks q (hs.mapped p q hq)).children hmem⟩
  rw [show t.block i = s.block i from (ht.tasks i hi).block]
  exact hp

theorem isSome_insertBlock : ((s.insertBlock b i).blocksBeingValidated b).isSome = true := by
  unfold insertBlock
  split_ifs with hnone
  · show (Function.update s.blocksBeingValidated b (some i) b).isSome = true
    rw [Function.update_self]
    rfl
  · rw [Bool.not_eq_true, Option.isNone_eq_false_iff] at hnone
    exact hnone

theorem map_insertBlock_of_ne (h : p ≠ b) :
    (s.insertBlock b i).blocksBeingValidated p = s.blocksBeingValidated p := by
  unfold insertBlock
  split_ifs
  · exact Function.update_of_ne h ..
  · rfl

theorem map_insertBlock {q : ℕ} (h : s.blocksBeingValidated p = some q) :
    (s.insertBlock b i).blocksBeingValidated p = some q := by
  unfold insertBlock
  split_ifs with hnone
  · have hne : p ≠ b := by
      rintro rfl
      rw [h] at hnone
      cases hnone
    exact (Function.update_of_ne hne ..).trans h
  · exact h

/-- The object that `scheduleNext` makes. -/
def nextTask (b : ι) : Task ι where
  block := b
  isFullBlock := true
  status := { Status.unknown with validHeader := true, validTree := true }
  hasIndex := true
  chainChildren := []
  chunksLeft := -1

/-- The object is made and entered into the map. -/
def makeNext (s : Pipeline ι) (b : ι) : Pipeline ι :=
  { s with made := s.made + 1, tasks := Function.update s.tasks s.made (nextTask b) }.insertBlock b s.made

theorem scheduleNext_eq (s : Pipeline ι) (hp : T.pprev b = some p) :
    s.scheduleNext T b = { ((s.makeNext b).meetParent s.made p ((s.makeNext b).chainTx p)).post
      (.checks2HaveParentHeaders s.made) with
        lastFullBlockScheduled := s.lastFullBlockScheduled + 1 } := by
  unfold scheduleNext
  dsimp only
  rw [hp]
  have hlast : ∀ (v : Pipeline ι) k x valid,
      (v.meetParent k x valid).lastFullBlockScheduled = v.lastFullBlockScheduled := by
    intro v k x valid
    unfold meetParent
    split
    · rfl
    · split_ifs <;> rfl
  have hinsert : ∀ (v : Pipeline ι) x k,
      (v.insertBlock x k).lastFullBlockScheduled = v.lastFullBlockScheduled := by
    intro v x k
    unfold insertBlock
    split_ifs <;> rfl
  dsimp only [makeNext]
  congr 1
  show (meetParent _ _ _ _).lastFullBlockScheduled + 1 = _
  rw [hlast, hinsert]

theorem tasks_makeNext_self : (s.makeNext b).tasks s.made = nextTask b := by
  unfold makeNext insertBlock
  split_ifs
  · exact Function.update_self ..
  · exact Function.update_self ..

theorem tasks_makeNext_of_ne (h : i ≠ s.made) : (s.makeNext b).tasks i = s.tasks i := by
  unfold makeNext insertBlock
  split_ifs
  · exact Function.update_of_ne h ..
  · exact Function.update_of_ne h ..

theorem bounded_makeNext (h : Bounded s) : Bounded (s.makeNext b) :=
  (h.make (show (nextTask b).chainChildren = [] from rfl)).insertBlock (Nat.lt_succ_self s.made)

/-- All of `makeNext` but the map and the objects. -/
theorem makeNext_rest (s : Pipeline ι) (b : ι) : s.makeNext b = { s with
    made := s.made + 1
    tasks := (s.makeNext b).tasks
    blocksBeingValidated := (s.makeNext b).blocksBeingValidated } := by
  unfold makeNext insertBlock
  split_ifs <;> rfl

theorem map_makeNext_of_ne (h : p ≠ b) :
    (s.makeNext b).blocksBeingValidated p = s.blocksBeingValidated p :=
  map_insertBlock_of_ne h

omit [DecidableEq ι] in
/-- All of `meetParent` but the objects. -/
theorem meetParent_rest (s : Pipeline ι) (i : ℕ) (p : ι) (valid : Bool) :
    s.meetParent i p valid = { s with tasks := (s.meetParent i p valid).tasks } := by
  unfold meetParent
  split
  · rfl
  · split_ifs <;> rfl

/-- What `scheduleNext` does with the block `b` on `p`. -/
structure Scheduled (T : BlockIndex ι) (s t : Pipeline ι) (b p : ι) : Prop where
  bounded : Bounded t
  extends' : Extends s t
  made : t.made = s.made + 1
  block : t.block s.made = b
  mapped : (t.blocksBeingValidated b).isSome = true
  registered : ∀ q, s.blocksBeingValidated p = some q → Registered T t s.made
  valid : s.blocksBeingValidated p = none → s.chainTx p = true →
    (t.tasks s.made).status.validParent = true

theorem scheduleNext_spec (hs : Bounded s) (hp : T.pprev b = some p) :
    Scheduled T s (s.scheduleNext T b) b p := by
  have hne : p ≠ b := by
    rintro rfl
    have := T.height_child p p hp
    omega
  rw [scheduleNext_eq s hp]
  set v := s.makeNext b with hv
  set w := v.meetParent s.made p (v.chainTx p) with hw
  have hvb : Bounded v := bounded_makeNext hs
  have hvmade : v.made = s.made + 1 := by rw [hv, makeNext_rest]
  have hrest : w = { v with tasks := w.tasks } := meetParent_rest ..
  have hvrest := makeNext_rest s b
  have hgrows : Grows v w := grows_meetParent ..
  have hmap : w.blocksBeingValidated = v.blocksBeingValidated := hgrows.map
  have hwmade : w.made = s.made + 1 := hgrows.made.trans hvmade
  have hblock : w.block s.made = b := by
    rw [hgrows.block, Pipeline.block, tasks_makeNext_self]
    rfl
  have hwb : Bounded w := hvb.meetParent (by omega) _
  refine ⟨?_, ⟨?_, ?_, ?_, ?_, ?_, ?_, ?_⟩, hwmade, hblock, ?_, ?_, ?_⟩
  · exact (hwb.post (j := .checks2HaveParentHeaders s.made)
      (by rw [hwmade]; exact Nat.lt_succ_self _)).congr rfl rfl rfl rfl fun _ => rfl
  · show s.made ≤ w.made
    omega
  · show w.db = s.db
    rw [hrest, hv, hvrest]
  · show w.chainTx = s.chainTx
    rw [hrest, hv, hvrest]
  · show w.haveData = s.haveData
    rw [hrest, hv, hvrest]
  · show s.lastFullBlockScheduled + 1 = s.lastFullBlockScheduled + ((w.made : ℤ) - s.made)
    omega
  · intro x q hq
    show w.blocksBeingValidated x = some q
    rw [hmap]
    exact map_insertBlock hq
  · intro k hk
    show Task.Grows (s.tasks k) (w.tasks k)
    rw [← tasks_makeNext_of_ne (b := b) (Nat.ne_of_lt hk)]
    exact hgrows.tasks k
  · show (w.blocksBeingValidated b).isSome = true
    rw [hmap]
    exact isSome_insertBlock
  · intro q hq
    have hqv : v.blocksBeingValidated p = some q := (map_makeNext_of_ne hne).trans hq
    refine ⟨p, q, ?_, ?_, ?_⟩
    · show T.pprev (w.block s.made) = some p
      rw [hblock]
      exact hp
    · show w.blocksBeingValidated p = some q
      rw [hmap]
      exact hqv
    · show s.made ∈ (w.tasks q).chainChildren
      rw [hw, meetParent, hqv]
      dsimp only
      rw [tasks_modify_self]
      exact List.mem_append_right _ (List.mem_singleton.mpr rfl)
  · intro hnone hchainTx
    have hpv : v.blocksBeingValidated p = none := (map_makeNext_of_ne hne).trans hnone
    have hvalid : v.chainTx p = true := by
      rw [hv, hvrest]
      exact hchainTx
    show (w.tasks s.made).status.validParent = true
    rw [hw, meetParent, hpv]
    dsimp only
    rw [if_pos hvalid, tasks_modify_self]
    rfl

/-! ## The loop -/

/-- The next block is on the headers chain, one above the last one. -/
theorem nextBlock_spec (hc : s.db.headersChain.Valid T) (hlast : 0 ≤ s.lastFullBlockScheduled)
    (h : s.nextBlock = some b) : s.db.headersChain.contains T b = true ∧
      (T.nHeight b : ℤ) = s.lastFullBlockScheduled + 1 ∧ ∃ p, T.pprev b = some p ∧
        s.db.headersChain.contains T p = true := by
  unfold nextBlock at h
  rcases hc with hnil | ⟨tip, htip⟩
  · rw [hnil] at h
    cases h
  · rw [htip.getElem?] at h
    split_ifs at h with hle
    · obtain ⟨hb, hheight⟩ := Forest.ancestor?_eq_some_iff.mp h
      have hheight' : T.nHeight b = (s.lastFullBlockScheduled + 1).toNat := hheight
      refine ⟨htip.contains_iff.mpr hb, by omega, ?_⟩
      cases hp : T.pprev b with
      | none =>
        have := T.height_root b hp
        omega
      | some p => exact ⟨p, rfl, htip.contains_iff.mpr ((Forest.Le.of_parent hp).trans hb)⟩
    · cases h

/-- Two blocks of a chain at one height. -/
theorem eq_of_contains {c : CChain ι} {x y : ι} (hx : c.contains T x = true)
    (hy : c.contains T y = true) (hheight : T.nHeight x = T.nHeight y) : x = y := by
  unfold CChain.contains at hx hy
  have hxy := (of_decide_eq_true hx).symm.trans ((hheight ▸ rfl : _ = _).trans (of_decide_eq_true hy))
  exact Option.some.inj hxy

/-- What the loop makes of `s`, with room for `room` blocks. -/
structure Loops (T : BlockIndex ι) (room : ℕ) (s t : Pipeline ι) : Prop where
  bounded : Bounded t
  extends' : Extends s t
  heights : ∀ i, s.made ≤ i → i < t.made → s.db.headersChain.contains T (t.block i) = true ∧
    (T.nHeight (t.block i) : ℤ) = s.lastFullBlockScheduled + 1 + ((i : ℤ) - s.made)
  registered : ∀ i, s.made < i → i < t.made → Registered T t i
  first : s.made < t.made → ∃ b p, s.nextBlock = some b ∧ s.haveData b = true ∧
    T.pprev b = some p ∧ t.block s.made = b ∧
    (∀ q, s.blocksBeingValidated p = some q → Registered T t s.made) ∧
    (s.blocksBeingValidated p = none → s.chainTx p = true →
      (t.tasks s.made).status.validParent = true)
  starts : room ≠ 0 → ∀ b, s.nextBlock = some b → s.haveData b = true → s.made < t.made

/-- One round before the others. -/
theorem Loops.cons {room : ℕ} (hc : s.db.headersChain.Valid T) (hs : Bounded s)
    (hlast : 0 ≤ s.lastFullBlockScheduled) (hb : s.nextBlock = some b) (hdata : s.haveData b = true)
    (hp : T.pprev b = some p) (ht : Loops T room (s.scheduleNext T b) t) :
    Loops T (room + 1) s t := by
  have hround := scheduleNext_spec hs hp
  set v := s.scheduleNext T b with hv
  obtain ⟨hbOn, hbHeight, -⟩ := nextBlock_spec hc hlast hb
  have hext := hround.extends'.trans ht.extends'
  have hmade := hround.made
  have hlastv : v.lastFullBlockScheduled = s.lastFullBlockScheduled + 1 := by
    rw [hround.extends'.last, hmade]
    push_cast
    omega
  have hvt := ht.extends'.made
  have hself : s.made < v.made := by omega
  have hblock : t.block s.made = b :=
    (ht.extends'.tasks s.made hself).block.trans hround.block
  refine ⟨ht.bounded, hext, ?_, ?_, ?_, fun _ _ _ _ => by omega⟩
  · intro i hi hi'
    by_cases hfirst : i = s.made
    · subst hfirst
      rw [hblock]
      exact ⟨hbOn, by omega⟩
    · obtain ⟨hon, hheight⟩ := ht.heights i (by omega) hi'
      rw [hround.extends'.db] at hon
      exact ⟨hon, by rw [hheight, hlastv, hmade]; push_cast; omega⟩
  · intro i hi hi'
    by_cases hsecond : i = v.made
    · -- the block after `b` is on `b`, which is in the map
      subst hsecond
      obtain ⟨b', p', hb', -, hp', -, hreg, -⟩ := ht.first hi'
      have hcv : v.db.headersChain.Valid T := by
        rw [hround.extends'.db]
        exact hc
      obtain ⟨-, hheight', q', hq', hon'⟩ := nextBlock_spec hcv (by omega) hb'
      rw [hp'] at hq'
      obtain rfl := Option.some.inj hq'
      have hchild := T.height_child b' p' hp'
      rw [hround.extends'.db] at hon'
      obtain rfl : p' = b := eq_of_contains hon' hbOn (by omega)
      obtain ⟨q, hq⟩ := Option.isSome_iff_exists.mp hround.mapped
      exact hreg q hq
    · exact ht.registered i (by omega) hi'
  · intro _
    refine ⟨b, p, hb, hdata, hp, hblock, fun q hq => ?_, fun hnone hchainTx => ?_⟩
    · exact (hround.registered q hq).extends hself hround.bounded ht.extends'
    · exact (ht.extends'.tasks s.made hself).validParent (hround.valid hnone hchainTx)

/-- An engine at its start: the two chains are read from disk, and nothing is being validated. -/
structure Fresh (T : BlockIndex ι) (s : Pipeline ι) : Prop where
  headers : s.db.headersChain.Valid T
  chain : s.blockchain.Valid T
  tip : ∀ t, s.blockchain.tip = some t → s.db.headersChain.contains T t = true
  chainTx : ∀ b, s.blockchain.contains T b = true → s.chainTx b = true
  map : ∀ b, s.blocksBeingValidated b = none
  jobs : s.jobs = []
  orphans : s.orphanBlocks = []
  children : ∀ i, (s.tasks i).chainChildren = []

theorem Fresh.aligned (h : Fresh T s) : Aligned T s :=
  ⟨h.headers, h.chain, fun t ht _ => h.tip t ht, h.chainTx⟩

theorem Fresh.bounded (h : Fresh T s) : Bounded s where
  mapped b i hi := by
    rw [h.map b] at hi
    cases hi
  posted j hj := by
    rw [h.jobs] at hj
    cases hj
  parked o ho := by
    rw [h.orphans] at ho
    cases ho
  children i c hc := by
    rw [h.children i] at hc
    cases hc

/-- The blocks that `findMoreJobs` has scheduled, on the way from `u` to `t`: they are consecutive
on the headers chain, the first one is on the tip of the active chain or on a block that is being
validated, and each has its parent or waits for one that is being validated. -/
structure Contiguous (T : BlockIndex ι) (u t : Pipeline ι) : Prop where
  chain : ∀ i, u.made ≤ i → i < t.made → u.db.headersChain.contains T (t.block i) = true
  heights : ∀ i, u.made ≤ i → i < t.made →
    T.nHeight (t.block i) = T.nHeight (t.block u.made) + (i - u.made)
  first : u.made < t.made → ∃ p, T.pprev (t.block u.made) = some p ∧
    (u.blockchain.tip = some p ∨ (u.blocksBeingValidated p).isSome = true)
  parents : ∀ i, u.made ≤ i → i < t.made →
    (t.tasks i).status.validParent = true ∨ Registered T t i

local instance neZero_lateFork : NeZero 4 := ⟨by decide⟩

end Pipeline

end Validation
