/-
# Merkle roots

`ComputeMerkleRoot` (`libs/server/consensus/merkle.cpp`) folds the hashes of the
transactions of a block into one hash in constant space.  `inner` holds the roots of the
complete subtrees that the leaves so far form, at most one for each level, like the set
bits of the counter `count`; a new leaf is carried upwards through them.  At the end the
rightmost branch is swept up, and a node without a right neighbour is hashed with itself.

While subtrees are carried upwards, equal neighbours raise the flag `mutated`.  The flag
is all that tells apart two lists of transactions with the same root.

* `merkleComputation_spec` : the root is the root of the tree that repeats what is
  missing, and the flag says whether two neighbouring complete subtrees have the same hash;
* `computeMerkleRoot_detects_mutation` : of two lists with the same root, one is flagged.
-/
import Hub.PaddedTree
import Mathlib.Algebra.Free
import Mathlib.Data.Nat.Bitwise

namespace Merkle

variable {α : Type}

/-! ## The computation -/

/-- The local variables of `MerkleComputation`.  `count` is a `uint32_t`, `branch` is the
list behind `pbranch`, if there is one. -/
structure State (α : Type) where
  count : ℕ
  inner : ℕ → α
  mutated : Bool
  matchlevel : ℤ
  branch : Option (List α)

/-- `pbranch->push_back(h)`, where `pbranch` is not null. -/
def State.push (s : State α) (h : α) : State α := { s with branch := s.branch.map (· ++ [h]) }

/-- One round of the loops that go up a level: the neighbour that belongs into the branch,
and whether the node above depends on the matching leaf. -/
def State.follow (s : State α) (level : ℕ) (h : α) (matchh : Bool) : State α × Bool :=
  if s.branch.isNone then (s, matchh)
  else if matchh then (s.push (s.inner level), true)
  else if s.matchlevel = level then (s.push h, true)
  else (s, false)

@[simp] theorem State.count_push (s : State α) (h : α) : (s.push h).count = s.count := rfl

@[simp] theorem State.inner_push (s : State α) (h : α) : (s.push h).inner = s.inner := rfl

@[simp] theorem State.mutated_push (s : State α) (h : α) : (s.push h).mutated = s.mutated := rfl

/-- The branch is all that `follow` changes. -/
theorem State.follow_spec (s : State α) (level : ℕ) (h : α) (matchh : Bool) :
    (s.follow level h matchh).1.count = s.count ∧
      (s.follow level h matchh).1.inner = s.inner ∧
      (s.follow level h matchh).1.mutated = s.mutated := by
  unfold follow
  split
  · simp
  · split
    · simp
    · split <;> simp

variable [DecidableEq α]

/-- The loop that combines `h` with the subtrees on its left while the bits of `count` are
zero.  The first argument is the number of levels left in `inner`; the loop over the leaves
compares neighbours, the final sweep does not. -/
def climb (Hash : α → α → α) (compare : Bool) :
    ℕ → ℕ → α → Bool → State α → Option (ℕ × α × Bool × State α)
  | 0, _, _, _, _ => none
  | levels + 1, level, h, matchh, s =>
      if s.count.testBit level then some (level, h, matchh, s)
      else
        let (s, matchh) := s.follow level h matchh
        let s := { s with mutated := s.mutated || (compare && s.inner level == h) }
        climb Hash compare levels (level + 1) (Hash (s.inner level) h) matchh s

/-- The body of the loop over the leaves. -/
def addLeaf (Hash : α → α → α) (branchpos : ℕ) (s : State α) (leaf : α) :
    Option (State α) := do
  let matchh := s.count == branchpos
  let s := { s with count := (s.count + 1) % 2 ^ 32 }
  let (level, h, matchh, s) ← climb Hash true 32 0 leaf matchh s
  some { s with
    inner := Function.update s.inner level h
    matchlevel := if matchh then level else s.matchlevel }

/-- The lowest set bit of `count`, from `level` on. -/
def lowestLevel (count : ℕ) : ℕ → ℕ → Option ℕ
  | 0, _ => none
  | levels + 1, level =>
      if count.testBit level then some level else lowestLevel count levels (level + 1)

/-- The final sweep over the rightmost branch; the first argument bounds the rounds. -/
def sweep (Hash : α → α → α) : ℕ → ℕ → α → Bool → State α → Option (α × State α)
  | 0, _, _, _, _ => none
  | rounds + 1, level, h, matchh, s =>
      if s.count = 2 ^ level then some (h, s)
      else do
        let s := if matchh then s.push h else s
        let s := { s with count := (s.count + 2 ^ level) % 2 ^ 32 }
        let (level, h, matchh, s) ←
          climb Hash false (32 - (level + 1)) (level + 1) (Hash h h) matchh s
        sweep Hash rounds level h matchh s

variable [Inhabited α]

/-- `MerkleComputation`: the root, the flag `mutated` and the branch.  `none` stands for
an access behind the end of `inner`. -/
def merkleComputation (Hash : α → α → α) (leaves : List α) (branchpos : ℕ)
    (pbranch : Bool) : Option (α × Bool × Option (List α)) :=
  let branch := if pbranch then some [] else none
  if leaves = [] then some (default, false, branch)
  else do
    let s ← leaves.foldlM (addLeaf Hash branchpos)
      { count := 0, inner := fun _ => default, mutated := false, matchlevel := -1, branch }
    let level ← lowestLevel s.count 32 0
    let (h, s) ← sweep Hash 32 level (s.inner level) (s.matchlevel == level) s
    some (h, s.mutated, s.branch)

/-- `ComputeMerkleRoot`: the root and the flag `mutated`. -/
def computeMerkleRoot (Hash : α → α → α) (leaves : List α) : Option (α × Bool) := do
  let (root, mutated, _) ← merkleComputation Hash leaves (2 ^ 32 - 1) false
  some (root, mutated)

/-! ## Carrying a leaf upwards -/

omit [Inhabited α] in
/-- **The rule for the loop.**  What one round preserves holds at the first set bit. -/
theorem climb_spec (Hash : α → α → α) (compare : Bool) {count : ℕ} {inner : ℕ → α}
    {R : ℕ → α → Bool → Prop}
    (hstep : ∀ j h m, R j h m → count.testBit j = false →
      R (j + 1) (Hash (inner j) h) (m || (compare && inner j == h))) :
    ∀ (levels level : ℕ) (h : α) (matchh : Bool) (s : State α), s.count = count →
      s.inner = inner → R level h s.mutated →
      (∃ b, level ≤ b ∧ b < level + levels ∧ count.testBit b = true) →
      ∃ level' h' matchh' s', climb Hash compare levels level h matchh s
          = some (level', h', matchh', s') ∧ level ≤ level' ∧ level' < level + levels ∧
        count.testBit level' = true ∧ s'.count = count ∧ s'.inner = inner ∧
        R level' h' s'.mutated := by
  intro levels
  induction levels with
  | zero =>
    rintro level h matchh s - - - ⟨b, hb, hb', -⟩
    omega
  | succ levels ih =>
    rintro level h matchh s hcount hinner hR ⟨b, hb, hb', hbit⟩
    by_cases htest : count.testBit level = true
    · refine ⟨level, h, matchh, s, ?_, le_refl _, by omega, htest, hcount, hinner, hR⟩
      rw [climb, hcount, if_pos htest]
    · have hb'' : level ≠ b := by
        rintro rfl
        exact htest hbit
      obtain ⟨hfc, hfi, hfm⟩ := s.follow_spec level h matchh
      obtain ⟨level', h', matchh', s', hrun, hle, hlt, hrest⟩ := ih (level + 1)
        (Hash (inner level) h) (s.follow level h matchh).2
        { (s.follow level h matchh).1 with
          mutated := (s.follow level h matchh).1.mutated ||
            (compare && (s.follow level h matchh).1.inner level == h) }
        (by simpa [hfc] using hcount) (by simpa [hfi] using hinner)
        (by
          simp only [hfm, hfi, hinner]
          exact hstep level h s.mutated hR (by simpa using htest))
        ⟨b, by omega, by omega, hbit⟩
      refine ⟨level', h', matchh', s', ?_, by omega, by omega, hrest⟩
      rw [climb, hcount, if_neg htest]
      simp only [hfi, hinner] at hrun ⊢
      exact hrun

/-! ## The leaves so far -/

open PaddedTree (root block root_block_succ)

/-- Two neighbouring complete subtrees over `l` have the same hash. -/
def Flagged (Hash : α → α → α) (l : List α) : Prop :=
  ∃ j i, (2 * i + 2) * 2 ^ j ≤ l.length ∧
    root Hash j (block j (2 * i) l) = root Hash j (block j (2 * i + 1) l)

/-- The state after the leaves `l`: `inner` holds the roots of the complete subtrees that
the bits of `count` stand for. -/
structure Inv (Hash : α → α → α) (l : List α) (s : State α) : Prop where
  count : s.count = l.length
  inner : ∀ j, l.length.testBit j = true →
    s.inner j = root Hash j (block j (l.length / 2 ^ j - 1) l)
  mutated : s.mutated = true ↔ Flagged Hash l

theorem testBit_iff {n j : ℕ} : n.testBit j = true ↔ n / 2 ^ j % 2 = 1 := by
  rw [Nat.testBit_eq_decide_div_mod_eq, decide_eq_true_iff]

theorem testBit_eq_false_iff {n j : ℕ} : n.testBit j = false ↔ n / 2 ^ j % 2 = 0 := by
  rw [← Bool.not_eq_true, testBit_iff]
  omega

theorem not_testBit_of_dvd {n j : ℕ} (h : 2 ^ (j + 1) ∣ n) : ¬ n.testBit j = true := by
  obtain ⟨q, rfl⟩ := h
  rw [testBit_iff, pow_succ, mul_assoc, Nat.mul_div_cancel_left _ (by positivity)]
  omega

omit [DecidableEq α] [Inhabited α] in
/-- A block inside a prefix. -/
theorem block_append {j i : ℕ} {l : List α} (x : List α) (h : (i + 1) * 2 ^ j ≤ l.length) :
    block j i (l ++ x) = block j i l := by
  rw [add_mul, one_mul] at h
  rw [block, block, List.drop_append_of_le_length (Nat.le_of_add_right_le h),
    List.take_append_of_le_length]
  rw [List.length_drop]
  omega

omit [DecidableEq α] in
/-- Neighbours over one more leaf: those before it, and those that it completes. -/
theorem flagged_concat {Hash : α → α → α} {l : List α} {x : α} :
    Flagged Hash (l ++ [x]) ↔ Flagged Hash l ∨ ∃ j, 2 ^ (j + 1) ∣ l.length + 1 ∧
      root Hash j (block j ((l.length + 1) / 2 ^ j - 2) (l ++ [x]))
        = root Hash j (block j ((l.length + 1) / 2 ^ j - 1) (l ++ [x])) := by
  have hblock : ∀ {j i}, (2 * i + 2) * 2 ^ j ≤ l.length →
      block j (2 * i) (l ++ [x]) = block j (2 * i) l ∧
      block j (2 * i + 1) (l ++ [x]) = block j (2 * i + 1) l := by
    intro j i h
    refine ⟨block_append _ (le_trans (Nat.mul_le_mul_right _ ?_) h), block_append _ h⟩
    omega
  constructor
  · rintro ⟨j, i, hlen, heq⟩
    rw [List.length_append, List.length_singleton] at hlen
    rcases Nat.lt_or_ge l.length ((2 * i + 2) * 2 ^ j) with hlt | hge
    · right
      have hlen' : l.length + 1 = (2 * i + 2) * 2 ^ j := by omega
      refine ⟨j, ⟨i + 1, by rw [hlen']; ring⟩, ?_⟩
      rw [hlen', Nat.mul_div_cancel _ (by positivity)]
      exact heq
    · left
      rw [(hblock hge).1, (hblock hge).2] at heq
      exact ⟨j, i, hge, heq⟩
  · rintro (⟨j, i, hlen, heq⟩ | ⟨j, ⟨q, hq⟩, heq⟩)
    · refine ⟨j, i, ?_, ?_⟩
      · rw [List.length_append]
        omega
      · rw [(hblock hlen).1, (hblock hlen).2]
        exact heq
    · obtain ⟨i, rfl⟩ : ∃ i, q = i + 1 := Nat.exists_eq_succ_of_ne_zero (by
        rintro rfl
        omega)
      have hlen : l.length + 1 = (2 * i + 2) * 2 ^ j := by
        rw [hq]
        ring
      refine ⟨j, i, ?_, ?_⟩
      · rw [List.length_append, List.length_singleton, hlen]
      · rw [hlen, Nat.mul_div_cancel _ (by positivity)] at heq
        exact heq

/-- On the way up with the leaf `x` that follows `l`: at level `j` the hash `y` is the root
of the last `2 ^ j` leaves, and the flag knows the neighbours below. -/
structure Carried (Hash : α → α → α) (l : List α) (x : α) (j : ℕ) (y : α) (m : Bool) :
    Prop where
  dvd : 2 ^ j ∣ l.length + 1
  hash : y = root Hash j (block j ((l.length + 1) / 2 ^ j - 1) (l ++ [x]))
  mutated : m = true ↔ Flagged Hash l ∨ ∃ i < j, 2 ^ (i + 1) ∣ l.length + 1 ∧
    root Hash i (block i ((l.length + 1) / 2 ^ i - 2) (l ++ [x]))
      = root Hash i (block i ((l.length + 1) / 2 ^ i - 1) (l ++ [x]))

/-- A multiple of `2 ^ j` whose bit `j` is zero. -/
theorem exists_eq_of_dvd {n j : ℕ} (hdvd : 2 ^ j ∣ n) (hpos : 0 < n)
    (hbit : n.testBit j = false) : ∃ q, n = (2 * q + 2) * 2 ^ j := by
  obtain ⟨k, rfl⟩ := hdvd
  rw [testBit_eq_false_iff, Nat.mul_div_cancel_left _ (by positivity)] at hbit
  have hk : k ≠ 0 := by
    rintro rfl
    simp at hpos
  refine ⟨k / 2 - 1, ?_⟩
  have hk' : 2 * (k / 2 - 1) + 2 = k := by omega
  rw [hk', mul_comm]

/-- One level up. -/
theorem Carried.up {Hash : α → α → α} {l : List α} {s : State α} (h : Inv Hash l s) {x y : α}
    {j : ℕ} {m : Bool} (hc : Carried Hash l x j y m)
    (hbit : (l.length + 1).testBit j = false) :
    Carried Hash l x (j + 1) (Hash (s.inner j) y) (m || (true && s.inner j == y)) := by
  obtain ⟨hdvd, rfl, hm⟩ := hc
  have hpos : 0 < 2 ^ j := by positivity
  obtain ⟨q, hq⟩ := exists_eq_of_dvd hdvd (by omega) hbit
  have hdiv : (l.length + 1) / 2 ^ j = 2 * q + 2 := by rw [hq, Nat.mul_div_cancel _ hpos]
  have hdivl : l.length / 2 ^ j = 2 * q + 1 := by
    have hsucc := Nat.succ_div_of_dvd hdvd
    omega
  have hdvd' : 2 ^ (j + 1) ∣ l.length + 1 := ⟨q + 1, by rw [hq]; ring⟩
  have hinner : s.inner j = root Hash j (block j (2 * q) (l ++ [x])) := by
    rw [h.inner j (by rw [testBit_iff]; omega), hdivl, block_append]
    · rfl
    · have hlt := Nat.div_mul_le_self l.length (2 ^ j)
      rwa [hdivl] at hlt
  refine ⟨hdvd', ?_, ?_⟩
  · have hdiv' : (l.length + 1) / 2 ^ (j + 1) = q + 1 := by
      rw [pow_succ, ← Nat.div_div_eq_div_mul, hdiv]
      omega
    rw [hdiv, hdiv', hinner, Nat.add_sub_cancel, root_block_succ]
    · rfl
    · simp [hq]
  · have hcmp : ∀ z, (m || (true && s.inner j == z)) = true ↔ m = true ∨
        root Hash j (block j ((l.length + 1) / 2 ^ j - 2) (l ++ [x])) = z := by
      intro z
      simp [hinner, hdiv]
    rw [hcmp, hm, or_assoc]
    constructor
    · rintro (hf | ⟨i, hi, hrest⟩ | heq)
      · exact .inl hf
      · exact .inr ⟨i, by omega, hrest⟩
      · exact .inr ⟨j, by omega, hdvd', heq⟩
    · rintro (hf | ⟨i, hi, hrest⟩)
      · exact .inl hf
      · rcases Nat.lt_succ_iff_lt_or_eq.mp hi with hlt | rfl
        · exact .inr (.inl ⟨i, hlt, hrest⟩)
        · exact .inr (.inr hrest.2)

omit [DecidableEq α] [Inhabited α] in
/-- A positive number below `2 ^ k` has a set bit below `k`. -/
theorem exists_testBit {n k : ℕ} (hpos : 0 < n) (hlt : n < 2 ^ k) :
    ∃ b < k, n.testBit b = true := by
  obtain ⟨b, hb⟩ := Nat.exists_testBit_of_ne_zero (Nat.pos_iff_ne_zero.mp hpos)
  refine ⟨b, ?_, hb⟩
  by_contra hcon
  have hlt' : n < 2 ^ b := lt_of_lt_of_le hlt (Nat.pow_le_pow_right (by omega) (by omega))
  rw [Nat.testBit_lt_two_pow hlt'] at hb
  cases hb

/-- **One leaf.** -/
theorem Inv.addLeaf {Hash : α → α → α} {l : List α} {s : State α} (h : Inv Hash l s)
    (branchpos : ℕ) (x : α) (hlen : l.length + 1 < 2 ^ 32) :
    ∃ s', addLeaf Hash branchpos s x = some s' ∧ Inv Hash (l ++ [x]) s' := by
  have hcount : (s.count + 1) % 2 ^ 32 = l.length + 1 := by
    rw [h.count, Nat.mod_eq_of_lt hlen]
  have hstart : Carried Hash l x 0 x s.mutated := by
    refine ⟨by simp, ?_, by simp [h.mutated]⟩
    simp only [root, block, pow_zero, Nat.div_one, mul_one, Nat.add_sub_cancel, List.drop_left]
    rfl
  obtain ⟨b, hb, hbit⟩ := exists_testBit (Nat.succ_pos l.length) hlen
  obtain ⟨level, y, matchh, s', hrun, -, -, hset, hcount', hinner, hdvd, rfl, hmut⟩ :=
    climb_spec Hash true (fun j y m hc hbit => Carried.up h hc hbit) 32 0 x
      (s.count == branchpos) { s with count := (s.count + 1) % 2 ^ 32 } hcount rfl hstart
      ⟨b, Nat.zero_le _, by omega, hbit⟩
  replace hinner : s'.inner = s.inner := hinner
  have hodd : ¬ 2 ^ (level + 1) ∣ l.length + 1 := fun hc => not_testBit_of_dvd hc hset
  refine ⟨_, by rw [Merkle.addLeaf]; simp only [hrun]; rfl, ?_, ?_, ?_⟩
  · simpa using hcount'
  · intro j hj
    simp only [List.length_append, List.length_singleton] at hj ⊢
    rcases Nat.lt_trichotomy j level with hlt | rfl | hgt
    · have hdvd' : 2 ^ (j + 1) ∣ l.length + 1 := dvd_trans (pow_dvd_pow 2 hlt) hdvd
      exact absurd hj (not_testBit_of_dvd hdvd')
    · rw [Function.update_self]
    · -- above the leaf's own level nothing has changed
      have hnot : ¬ 2 ^ j ∣ l.length + 1 := fun hc => hodd (dvd_trans (pow_dvd_pow 2 hgt) hc)
      have hdiv := Nat.succ_div_of_not_dvd hnot
      rw [testBit_iff, hdiv] at hj
      have hle := Nat.div_mul_le_self l.length (2 ^ j)
      have hone : 1 ≤ l.length / 2 ^ j := by
        by_contra hcon
        rw [Nat.lt_one_iff.mp (not_le.mp hcon)] at hj
        cases hj
      rw [Function.update_of_ne (by omega), hinner, h.inner j (testBit_iff.mpr hj), hdiv,
        block_append]
      rwa [Nat.sub_add_cancel hone]
  · rw [flagged_concat, hmut]
    refine or_congr_right ⟨?_, ?_⟩
    · rintro ⟨j, -, hj⟩
      exact ⟨j, hj⟩
    · rintro ⟨j, hj, heq⟩
      refine ⟨j, ?_, hj, heq⟩
      by_contra hcon
      exact hodd (dvd_trans (pow_dvd_pow 2 (by omega)) hj)

/-- **All leaves.** -/
theorem exists_inv (Hash : α → α → α) (branchpos : ℕ) (branch : Option (List α)) :
    ∀ (l : List α), l.length < 2 ^ 32 →
      ∃ s, l.foldlM (addLeaf Hash branchpos)
          { count := 0, inner := fun _ => default, mutated := false, matchlevel := -1, branch }
          = some s ∧ Inv Hash l s := by
  intro l
  induction l using List.reverseRecOn with
  | nil =>
    intro _
    refine ⟨_, rfl, rfl, by simp, ?_⟩
    simp only [Bool.false_eq_true, false_iff]
    rintro ⟨j, i, hlen, -⟩
    have hpos : 0 < (2 * i + 2) * 2 ^ j := by positivity
    rw [List.length_nil] at hlen
    omega
  | append_singleton l x ih =>
    intro hlen
    rw [List.length_append, List.length_singleton] at hlen
    obtain ⟨s, hs, hinv⟩ := ih (by omega)
    obtain ⟨s', hs', hinv'⟩ := hinv.addLeaf branchpos x hlen
    refine ⟨s', ?_, hinv'⟩
    rw [List.foldlM_append, hs]
    simpa using hs'

/-! ## The final sweep -/

/-- The first set bit is found. -/
theorem lowestLevel_spec {count : ℕ} : ∀ (levels level : ℕ), 2 ^ level ∣ count →
    (∃ b, level ≤ b ∧ b < level + levels ∧ count.testBit b = true) →
    ∃ level', lowestLevel count levels level = some level' ∧ 2 ^ level' ∣ count ∧
      level' < level + levels ∧ count.testBit level' = true := by
  intro levels
  induction levels with
  | zero =>
    rintro level - ⟨b, hb, hb', -⟩
    omega
  | succ levels ih =>
    rintro level hdvd ⟨b, hb, hb', hbit⟩
    by_cases htest : count.testBit level = true
    · exact ⟨level, by rw [lowestLevel, if_pos htest], hdvd, by omega, htest⟩
    · have hne : level ≠ b := by
        rintro rfl
        exact htest hbit
      have hdvd' : 2 ^ (level + 1) ∣ count := by
        rcases Nat.eq_zero_or_pos count with rfl | hpos
        · exact dvd_zero _
        · obtain ⟨q, hq⟩ := exists_eq_of_dvd hdvd hpos (by simpa using htest)
          exact ⟨q + 1, by rw [hq]; ring⟩
      obtain ⟨level', hrun, hrest, hlt, hset⟩ := ih (level + 1) hdvd' ⟨b, by omega, by omega, hbit⟩
      exact ⟨level', by rw [lowestLevel, if_neg htest, hrun], hrest, by omega, hset⟩

/-- The counter of the sweep, as if the last subtree at level `j` were complete. -/
def SweepCount (n count j : ℕ) : Prop := count = ((n - 1) / 2 ^ j + 1) * 2 ^ j

theorem SweepCount.div {n count j : ℕ} (h : SweepCount n count j) :
    count / 2 ^ j = (n - 1) / 2 ^ j + 1 := by
  rw [h, Nat.mul_div_cancel _ (by positivity)]

/-- A round up in the sweep. -/
theorem SweepCount.up {n count j : ℕ} (h : SweepCount n count j) (hbit : count.testBit j = false) :
    SweepCount n count (j + 1) ∧ ∃ q, count / 2 ^ j = 2 * q + 2 ∧
      (n.testBit j = true → n / 2 ^ j = 2 * q + 1) := by
  have hdiv := h.div
  rw [testBit_eq_false_iff] at hbit
  obtain ⟨q, hq⟩ : ∃ q, (n - 1) / 2 ^ j = 2 * q + 1 := ⟨(n - 1) / 2 ^ j / 2, by omega⟩
  have hnext : (n - 1) / 2 ^ (j + 1) = q := by
    rw [pow_succ, ← Nat.div_div_eq_div_mul, hq]
    omega
  refine ⟨?_, q, by omega, fun hn => ?_⟩
  · rw [SweepCount, hnext, h, hq]
    ring
  · rw [testBit_iff] at hn
    have hle : (n - 1) / 2 ^ j ≤ n / 2 ^ j := Nat.div_le_div_right (Nat.sub_le n 1)
    have hge : n / 2 ^ j ≤ (n - 1) / 2 ^ j + 1 := by
      rcases Nat.eq_zero_or_pos n with rfl | hpos
      · simp
      · have hsucc := @Nat.succ_div (n - 1) (2 ^ j)
        rw [Nat.sub_add_cancel hpos] at hsucc
        split at hsucc <;> omega
    omega

/-- The last subtree is used twice. -/
theorem SweepCount.double {n count j : ℕ} (h : SweepCount n count j)
    (hbit : count.testBit j = true) : SweepCount n (count + 2 ^ j) (j + 1) ∧
      ∃ q, count / 2 ^ j = 2 * q + 1 ∧ (count + 2 ^ j) / 2 ^ (j + 1) = q + 1 := by
  have hdiv := h.div
  rw [testBit_iff] at hbit
  obtain ⟨q, hq⟩ : ∃ q, (n - 1) / 2 ^ j = 2 * q := ⟨(n - 1) / 2 ^ j / 2, by omega⟩
  have hnext : (n - 1) / 2 ^ (j + 1) = q := by
    rw [pow_succ, ← Nat.div_div_eq_div_mul, hq]
    omega
  have hcount : SweepCount n (count + 2 ^ j) (j + 1) := by
    rw [SweepCount, hnext, h, hq]
    ring
  exact ⟨hcount, q, by omega, by rw [hcount.div, hnext]⟩

/-- The counter stays a `uint32_t` as long as the branch is not at the top. -/
theorem SweepCount.le {n count j : ℕ} (h : SweepCount n count (j + 1)) (hn : n < 2 ^ 31)
    (hj : 2 ^ j < n) : count ≤ 2 ^ 31 := by
  have hj' : j + 1 ≤ 31 := by
    by_contra hcon
    have : 2 ^ 31 ≤ 2 ^ j := Nat.pow_le_pow_right (by omega) (by omega)
    omega
  obtain ⟨e, he⟩ := Nat.exists_eq_add_of_le hj'
  have hpow : 2 ^ 31 = 2 ^ (j + 1) * 2 ^ e := by rw [← pow_add, ← he]
  have hdiv : (n - 1) / 2 ^ (j + 1) < 2 ^ e := by
    apply Nat.div_lt_of_lt_mul
    omega
  rw [h, hpow, mul_comm (2 ^ (j + 1))]
  exact Nat.mul_le_mul_right _ hdiv

/-- The rightmost branch up to level `j`: the last block, complete or not, is folded into
`y`, and the counter is what it would be if that block were complete. -/
structure Swept (Hash : α → α → α) (l : List α) (j : ℕ) (y : α) (count : ℕ) : Prop where
  count : count = ((l.length - 1) / 2 ^ j + 1) * 2 ^ j
  hash : y = root Hash j (l.drop ((l.length - 1) / 2 ^ j * 2 ^ j))

omit [DecidableEq α] in
/-- The last block has no right neighbour: it is used twice. -/
theorem Swept.double {Hash : α → α → α} {l : List α} (hne : l ≠ []) {j : ℕ} {y : α} {count : ℕ}
    (h : Swept Hash l j y count) (hbit : count.testBit j = true) :
    Swept Hash l (j + 1) (Hash y y) (count + 2 ^ j) := by
  have hnext := (SweepCount.double h.count hbit).1
  obtain ⟨rfl, rfl⟩ := h
  have hlen := List.length_pos_iff.mpr hne
  have hpos : 0 < 2 ^ j := by positivity
  rw [testBit_iff, Nat.mul_div_cancel _ hpos] at hbit
  obtain ⟨q, hq⟩ : ∃ q, (l.length - 1) / 2 ^ j = 2 * q := ⟨(l.length - 1) / 2 ^ j / 2, by omega⟩
  have hq' : (l.length - 1) / 2 ^ (j + 1) = q := by
    rw [pow_succ, ← Nat.div_div_eq_div_mul, hq]
    omega
  have hoff : q * 2 ^ (j + 1) = 2 * q * 2 ^ j := by ring
  have hlt := Nat.lt_mul_div_succ (l.length - 1) hpos
  rw [hq] at hlt
  refine ⟨hnext, ?_⟩
  rw [hq', hoff, hq, root, if_neg]
  rw [List.length_drop]
  have : 2 ^ j * (2 * q + 1) = 2 * q * 2 ^ j + 2 ^ j := by ring
  omega

omit [DecidableEq α] in
/-- The last block has a left neighbour, complete and in `inner`. -/
theorem Swept.join {Hash : α → α → α} {l : List α} (hne : l ≠ []) {inner : ℕ → α} {j : ℕ}
    {y : α} {count : ℕ} (h : Swept Hash l j y count) (hbit : count.testBit j = false)
    (hinner : l.length.testBit j = true →
      inner j = root Hash j (block j (l.length / 2 ^ j - 1) l))
    (hnot : ¬ 2 ^ j ∣ l.length) :
    Swept Hash l (j + 1) (Hash (inner j) y) count := by
  have hnext := (SweepCount.up h.count hbit).1
  obtain ⟨rfl, rfl⟩ := h
  have hlen := List.length_pos_iff.mpr hne
  have hpos : 0 < 2 ^ j := by positivity
  rw [testBit_eq_false_iff, Nat.mul_div_cancel _ hpos] at hbit
  obtain ⟨q, hq⟩ : ∃ q, (l.length - 1) / 2 ^ j = 2 * q + 1 :=
    ⟨(l.length - 1) / 2 ^ j / 2, by omega⟩
  have hq' : (l.length - 1) / 2 ^ (j + 1) = q := by
    rw [pow_succ, ← Nat.div_div_eq_div_mul, hq]
    omega
  have hdiv : l.length / 2 ^ j = 2 * q + 1 := by
    have hsucc := Nat.succ_div_of_not_dvd (a := l.length - 1) (b := 2 ^ j)
      (by rwa [Nat.sub_add_cancel hlen])
    rwa [Nat.sub_add_cancel hlen, hq] at hsucc
  have hoff : q * 2 ^ (j + 1) = 2 * q * 2 ^ j := by ring
  have hle := Nat.div_mul_le_self (l.length - 1) (2 ^ j)
  rw [hq] at hle
  have hsum : (2 * q + 1) * 2 ^ j = 2 * q * 2 ^ j + 2 ^ j := by ring
  refine ⟨hnext, ?_⟩
  rw [hinner (by rw [testBit_iff]; omega), hdiv, hq', hoff, hq, root, if_pos, List.drop_drop,
    ← hsum, Nat.add_sub_cancel]
  · rfl
  · rw [List.length_drop]
    omega

omit [DecidableEq α] in
/-- A block with a left neighbour is not at the top. -/
theorem Swept.lt_of_not_testBit {Hash : α → α → α} {l : List α} {j : ℕ} {y : α} {count : ℕ}
    (h : Swept Hash l j y count) (hbit : count.testBit j = false) :
    2 ^ (j + 1) < 2 * l.length := by
  obtain ⟨rfl, -⟩ := h
  have hpos : 0 < 2 ^ j := by positivity
  rw [testBit_eq_false_iff, Nat.mul_div_cancel _ hpos] at hbit
  have hdiv : 1 ≤ (l.length - 1) / 2 ^ j := by
    generalize (l.length - 1) / 2 ^ j = q at hbit
    omega
  have hle := (Nat.one_le_div_iff hpos).mp hdiv
  rw [pow_succ]
  omega

/-- **The sweep ends at the root.** -/
theorem sweep_spec {Hash : α → α → α} {l : List α} (hne : l ≠ []) (hlen : l.length < 2 ^ 31)
    {inner : ℕ → α} (hinner : ∀ j, l.length.testBit j = true →
      inner j = root Hash j (block j (l.length / 2 ^ j - 1) l)) :
    ∀ (rounds level : ℕ) (y : α) (matchh : Bool) (s : State α), s.inner = inner →
      Swept Hash l level y s.count → s.count.testBit level = true → level < 32 →
      32 ≤ level + rounds → ¬ 2 ^ (level + 1) ∣ l.length → 2 ^ level < 2 * l.length →
      ∃ d s', sweep Hash rounds level y matchh s = some (root Hash d l, s') ∧
        l.length ≤ 2 ^ d ∧ 2 ^ d < 2 * l.length ∧ s'.mutated = s.mutated := by
  intro rounds
  induction rounds with
  | zero =>
    intro level y matchh s _ _ _ hlevel hrounds
    omega
  | succ rounds ih =>
    intro level y matchh s hs hswept hbit hlevel hrounds hodd htall
    have hpos : 0 < 2 ^ level := by positivity
    have hlenpos := List.length_pos_iff.mpr hne
    by_cases htop : s.count = 2 ^ level
    · have hzero : (l.length - 1) / 2 ^ level = 0 := by
        have hc := hswept.count
        rw [htop, add_mul, one_mul] at hc
        have hmul : (l.length - 1) / 2 ^ level * 2 ^ level = 0 := by omega
        rcases Nat.mul_eq_zero.mp hmul with h0 | h0
        · exact h0
        · omega
      refine ⟨level, s, ?_, ?_, htall, rfl⟩
      · rw [sweep, if_pos htop, hswept.hash, hzero, zero_mul, List.drop_zero]
      · have := (Nat.div_eq_zero_iff).mp hzero
        omega
    · have hlong : 2 ^ level < l.length := by
        by_contra hcon
        have hzero : (l.length - 1) / 2 ^ level = 0 := Nat.div_eq_of_lt (by omega)
        exact htop (by rw [hswept.count, hzero, zero_add, one_mul])
      have hdouble := hswept.double hne hbit
      have hle := SweepCount.le hdouble.count hlen hlong
      have hmod : (s.count + 2 ^ level) % 2 ^ 32 = s.count + 2 ^ level :=
        Nat.mod_eq_of_lt (by omega)
      -- the counter is a multiple of `2 ^ (level + 1)`, so its first set bit is above
      obtain ⟨b, hb, hbitb⟩ := exists_testBit (n := s.count + 2 ^ level) (k := 32) (by omega)
        (by omega)
      have hblevel : level + 1 ≤ b := by
        by_contra hcon
        refine not_testBit_of_dvd (dvd_trans (pow_dvd_pow 2 (by omega : b + 1 ≤ level + 1)) ?_) hbitb
        rw [hdouble.count]
        exact dvd_mul_left _ _
      obtain ⟨level', y', matchh', s', hrun, hlevel', hlt', hbit', hcount', hinner', hR⟩ :=
        climb_spec Hash false
          (R := fun j z m => Swept Hash l j z (s.count + 2 ^ level) ∧ m = s.mutated ∧ level < j ∧
            2 ^ j < 2 * l.length)
          (by
            rintro j z m ⟨hz, rfl, hlj, -⟩ hzero
            refine ⟨hz.join hne hzero (hinner j) ?_, by simp, by omega,
              hz.lt_of_not_testBit hzero⟩
            exact fun hc => hodd (dvd_trans (pow_dvd_pow 2 hlj) hc))
          (32 - (level + 1)) (level + 1) (Hash y y) matchh
          { (if matchh then s.push y else s) with count := (s.count + 2 ^ level) % 2 ^ 32 }
          hmod (by split <;> simpa using hs)
          ⟨hdouble, by split <;> simp, by omega, by rw [pow_succ]; omega⟩
          ⟨b, hblevel, by omega, hbitb⟩
      obtain ⟨hswept', hmut', -, htall'⟩ := hR
      obtain ⟨d, s'', hrun', hd, hd', hmut⟩ := ih level' y' matchh' s' hinner'
        (by rw [hcount']; exact hswept') (by rw [hcount']; exact hbit') (by omega) (by omega)
        (fun hc => hodd (dvd_trans (pow_dvd_pow 2 (by omega)) hc)) htall'
      refine ⟨d, s'', ?_, hd, hd', hmut.trans hmut'⟩
      have hpush : (if matchh then s.push y else s).count = s.count := by split <;> simp
      rw [sweep, if_neg htop]
      simp only [hpush, hrun]
      exact hrun'

/-- **What the computation returns.**  The root is that of a tree that repeats what is
missing, and the flag says whether neighbouring complete subtrees have the same hash. -/
theorem merkleComputation_spec (Hash : α → α → α) {l : List α} (hne : l ≠ [])
    (hlen : l.length < 2 ^ 31) (branchpos : ℕ) (pbranch : Bool) :
    ∃ d mutated branch, merkleComputation Hash l branchpos pbranch
        = some (root Hash d l, mutated, branch) ∧ l.length ≤ 2 ^ d ∧ 2 ^ d < 2 * l.length ∧
      (mutated = true ↔ Flagged Hash l) := by
  have hpos := List.length_pos_iff.mpr hne
  obtain ⟨s, hs, hinv⟩ := exists_inv Hash branchpos (if pbranch then some [] else none) l
    (by omega)
  obtain ⟨b, hb, hbit⟩ := exists_testBit hpos (by omega : l.length < 2 ^ 32)
  obtain ⟨level, hlevel, hdvd, hlt, hset⟩ := lowestLevel_spec 32 0 (by simp)
    ⟨b, Nat.zero_le _, by omega, hbit⟩
  have hswept : Swept Hash l level (s.inner level) s.count := by
    obtain ⟨q, hq⟩ := hdvd
    have hp : 0 < 2 ^ level := by positivity
    have hdiv : l.length / 2 ^ level = q := by rw [hq, Nat.mul_div_cancel_left _ hp]
    have hqpos : 0 < q := by
      rcases Nat.eq_zero_or_pos q with rfl | h
      · omega
      · exact h
    have hdiv' : (l.length - 1) / 2 ^ level = q - 1 := by
      have hsucc := Nat.succ_div_of_dvd (a := l.length - 1) (b := 2 ^ level)
        (by rw [Nat.sub_add_cancel hpos]; exact ⟨q, hq⟩)
      rw [Nat.sub_add_cancel hpos, hdiv] at hsucc
      omega
    refine ⟨?_, ?_⟩
    · rw [hinv.count, hdiv', Nat.sub_add_cancel hqpos, hq, mul_comm]
    · rw [hinv.inner level hset, hdiv, hdiv', block, List.take_of_length_le]
      rw [List.length_drop, Nat.sub_mul, one_mul, hq, mul_comm q]
      have := Nat.le_mul_of_pos_right (2 ^ level) hqpos
      omega
  have htall : 2 ^ level ≤ l.length := Nat.ge_two_pow_of_testBit hset
  obtain ⟨d, s', hrun, hd, hd', hmut⟩ := sweep_spec hne hlen hinv.inner 32 level (s.inner level)
    (s.matchlevel == level) s rfl hswept (by rw [hinv.count]; exact hset) (by omega) (by omega)
    (fun hc => not_testBit_of_dvd hc hset) (by omega)
  refine ⟨d, s'.mutated, s'.branch, ?_, hd, hd', by rw [hmut, hinv.mutated]⟩
  rw [merkleComputation, if_neg hne]
  simp only [hs, Option.bind_eq_bind, Option.bind_some, hinv.count, hlevel, hrun]

/-! ## Malleability -/

section Injective

variable {Hash : α → α → α} (hinj : Function.Injective2 Hash)

include hinj

omit [DecidableEq α] in
/-- With an injective hash, equal neighbours are twins. -/
theorem flagged_iff_twins {l : List α} : Flagged Hash l ↔ PaddedTree.Twins l := by
  constructor
  · rintro ⟨j, i, hlen, heq⟩
    have hleft : (2 * i + 1) * 2 ^ j ≤ l.length :=
      le_trans (Nat.mul_le_mul_right _ (by omega)) hlen
    exact ⟨j, i, hlen, PaddedTree.eq_of_root_eq hinj (PaddedTree.length_block hleft)
      (PaddedTree.length_block hlen) heq⟩
  · rintro ⟨j, i, hlen, heq⟩
    exact ⟨j, i, hlen, by rw [heq]⟩

/-- The root and the flag of a list of leaves. -/
theorem computeMerkleRoot_spec {l : List α} (hne : l ≠ []) (hlen : l.length < 2 ^ 31) :
    ∃ d m, computeMerkleRoot Hash l = some (root Hash d l, m) ∧ l.length ≤ 2 ^ d ∧
      (m = true ↔ PaddedTree.Twins l) := by
  obtain ⟨d, m, branch, hrun, hd, -, hm⟩ :=
    merkleComputation_spec Hash hne hlen (2 ^ 32 - 1) false
  refine ⟨d, m, ?_, hd, by rw [hm, flagged_iff_twins hinj]⟩
  rw [computeMerkleRoot, hrun]
  rfl

/-- **Malleability is detected.**  The computation never runs out of `inner`; of two
different lists with the same root one is flagged as mutated, and a list without repeated
leaves is not. -/
theorem computeMerkleRoot_detects_mutation :
    (∀ l : List α, l.length < 2 ^ 31 → ∃ r m, computeMerkleRoot Hash l = some (r, m)) ∧
    (∀ (l₁ l₂ : List α) (r : α) (m₁ m₂ : Bool), l₁ ≠ [] → l₂ ≠ [] → l₁ ≠ l₂ →
      l₁.length < 2 ^ 31 → l₂.length < 2 ^ 31 → (∀ x ∈ l₁ ++ l₂, ∀ a b, x ≠ Hash a b) →
      computeMerkleRoot Hash l₁ = some (r, m₁) → computeMerkleRoot Hash l₂ = some (r, m₂) →
      m₁ = true ∨ m₂ = true) ∧
    (∀ (l : List α) (r : α) (m : Bool), l.length < 2 ^ 31 → l.Nodup →
      computeMerkleRoot Hash l = some (r, m) → m = false) := by
  refine ⟨?_, ?_, ?_⟩
  · intro l hlen
    by_cases hne : l = []
    · exact ⟨default, false, by rw [hne]; rfl⟩
    · obtain ⟨d, m, hrun, -⟩ := computeMerkleRoot_spec hinj hne hlen
      exact ⟨_, m, hrun⟩
  · intro l₁ l₂ r m₁ m₂ hne₁ hne₂ hne hlen₁ hlen₂ hleaf hrun₁ hrun₂
    obtain ⟨d₁, m₁', hspec₁, hd₁, hm₁⟩ := computeMerkleRoot_spec hinj hne₁ hlen₁
    obtain ⟨d₂, m₂', hspec₂, hd₂, hm₂⟩ := computeMerkleRoot_spec hinj hne₂ hlen₂
    rw [hspec₁, Option.some.injEq, Prod.mk.injEq] at hrun₁
    rw [hspec₂, Option.some.injEq, Prod.mk.injEq] at hrun₂
    obtain ⟨hr₁, rfl⟩ := hrun₁
    obtain ⟨hr₂, rfl⟩ := hrun₂
    have hroot : root Hash d₁ l₁ = root Hash d₂ l₂ := hr₁.trans hr₂.symm
    obtain rfl := PaddedTree.depth_eq_of_root_eq hinj hne₁ hne₂
      (fun x hx => hleaf x (List.mem_append_left _ hx))
      (fun x hx => hleaf x (List.mem_append_right _ hx)) hroot
    rw [hm₁, hm₂]
    exact (PaddedTree.eq_or_twins_of_root_eq hinj d₁ hne₁ hne₂ hd₁ hd₂ hroot).resolve_left hne
  · intro l r m hlen hnodup hrun
    by_cases hne : l = []
    · subst hne
      rw [computeMerkleRoot, merkleComputation] at hrun
      simpa using (congrArg (Option.map Prod.snd) hrun).symm
    · obtain ⟨d, m', hspec, -, hm⟩ := computeMerkleRoot_spec hinj hne hlen
      rw [hspec, Option.some.injEq, Prod.mk.injEq] at hrun
      obtain ⟨-, rfl⟩ := hrun
      rw [← Bool.not_eq_true, hm]
      exact PaddedTree.not_twins_of_nodup hnodup

end Injective

/-- Hashes as terms: a hash is the pair of what was hashed. -/
theorem injective2_mul : Function.Injective2 (FreeMagma.mul (α := ℕ)) := by
  intro a b c d h
  injection h with hleft hright
  exact ⟨hleft, hright⟩

/-- Hashes as terms: the leaves 1, 2, 3 with the last one repeated, or not. -/
theorem computeMerkleRoot_detects_mutation_terms :
    let l₁ : List (FreeMagma ℕ) := [.of 1, .of 2, .of 3]
    let l₂ : List (FreeMagma ℕ) := [.of 1, .of 2, .of 3, .of 3]
    ∃ r m₂, computeMerkleRoot FreeMagma.mul l₁ = some (r, false) ∧
      computeMerkleRoot FreeMagma.mul l₂ = some (r, m₂) ∧ m₂ = true := by
  have h₁ : computeMerkleRoot FreeMagma.mul [.of 1, .of 2, .of 3]
      = some (FreeMagma.mul (.mul (.of 1) (.of 2)) (.mul (.of 3) (.of 3)), false) := by decide
  have h₂ : computeMerkleRoot FreeMagma.mul [.of 1, .of 2, .of 3, .of 3]
      = some (FreeMagma.mul (.mul (.of 1) (.of 2)) (.mul (.of 3) (.of 3)), true) := by decide
  refine ⟨_, _, h₁, h₂, ?_⟩
  refine ((computeMerkleRoot_detects_mutation injective2_mul).2.1 _ _ _ _ _ (by simp) (by simp) (by simp)
    (by simp) (by simp) ?_ h₁ h₂).resolve_left (by simp)
  intro x hx a b
  simp only [List.cons_append, List.nil_append, List.mem_cons, List.not_mem_nil, or_false] at hx
  rcases hx with rfl | rfl | rfl | rfl | rfl | rfl | rfl <;> exact nofun

end Merkle
