/-
# Merkle branches

`ComputeMerkleBranch` (`libs/server/consensus/merkle.cpp`) runs `MerkleComputation` for the
neighbours on the way from one leaf to the root, and `ComputeMerkleRootFromBranch` goes that way
again with the leaf and its branch.

While the leaves are added, the node that covers the leaf at position `p` is one of the subtrees
in `inner`, and `matchlevel` says which; on the way up with a new leaf or in the final sweep it
can be the node at hand, and `matchh` says so.  What holds throughout is that the branch so far
leads from the leaf to that node (`Path`, `Waiting`, `Follows`).

* `merkleComputation_agrees` : the root is that of the tree built level by level, and every
  branch leads to it.
-/
import Hub.Merkle

namespace Merkle

variable {α : Type}

/-- `ComputeMerkleRootFromBranch`. -/
def computeMerkleRootFromBranch (Hash : α → α → α) (leaf : α) (vMerkleBranch : List α)
    (nIndex : ℕ) : α :=
  (vMerkleBranch.foldl (fun (hash, nIndex) sibling =>
    (if nIndex % 2 = 1 then Hash sibling hash else Hash hash sibling, nIndex / 2))
    (leaf, nIndex)).1

section

variable [DecidableEq α] [Inhabited α]

/-- `ComputeMerkleBranch`. -/
def computeMerkleBranch (Hash : α → α → α) (leaves : List α) (position : ℕ) :
    Option (List α) := do
  let (_, _, branch) ← merkleComputation Hash leaves position true
  branch

end

/-! ## The way from a leaf -/

section Path

variable (Hash : α → α → α) (leaf : α) (p : ℕ)

/-- `B` leads from the leaf at position `p` to the node `y`, which has the number `i` at level
`j`. -/
structure Path (j : ℕ) (y : α) (i : ℕ) (B : List α) : Prop where
  length : B.length = j
  root : computeMerkleRootFromBranch Hash leaf B p = y
  index : p / 2 ^ j = i

variable {Hash leaf p}

theorem path_zero : Path Hash leaf p 0 leaf p [] := ⟨rfl, rfl, by simp⟩

/-- The index that is left behind a branch. -/
theorem snd_foldl_branch (B : List α) : ∀ (hash : α) (n : ℕ),
    (B.foldl (fun (hash, nIndex) sibling =>
      ((if nIndex % 2 = 1 then Hash sibling hash else Hash hash sibling : α), nIndex / 2))
      (hash, n)).2 = n / 2 ^ B.length := by
  induction B with
  | nil => simp
  | cons x B ih =>
    intro hash n
    rw [List.foldl_cons, List.length_cons, pow_succ', ← Nat.div_div_eq_div_mul]
    exact ih _ _

/-- One neighbour more. -/
theorem computeMerkleRootFromBranch_concat (B : List α) (x : α) :
    computeMerkleRootFromBranch Hash leaf (B ++ [x]) p =
      if p / 2 ^ B.length % 2 = 1 then Hash x (computeMerkleRootFromBranch Hash leaf B p)
      else Hash (computeMerkleRootFromBranch Hash leaf B p) x := by
  rw [← @snd_foldl_branch α Hash B leaf p]
  unfold computeMerkleRootFromBranch
  rw [List.foldl_append]
  rfl

variable {j q : ℕ} {x y : α} {B : List α}

/-- A node with a right neighbour. -/
theorem Path.left (h : Path Hash leaf p j y (2 * q) B) :
    Path Hash leaf p (j + 1) (Hash y x) q (B ++ [x]) := by
  obtain ⟨rfl, rfl, hindex⟩ := h
  refine ⟨by simp, ?_, ?_⟩
  · rw [computeMerkleRootFromBranch_concat, hindex, if_neg (by omega)]
  · rw [pow_succ, ← Nat.div_div_eq_div_mul, hindex]
    omega

/-- A node with a left neighbour. -/
theorem Path.right (h : Path Hash leaf p j y (2 * q + 1) B) :
    Path Hash leaf p (j + 1) (Hash x y) q (B ++ [x]) := by
  obtain ⟨rfl, rfl, hindex⟩ := h
  refine ⟨by simp, ?_, ?_⟩
  · rw [computeMerkleRootFromBranch_concat, hindex, if_pos (by omega)]
  · rw [pow_succ, ← Nat.div_div_eq_div_mul, hindex]
    omega

end Path

/-! ## The node that covers the leaf -/

section Follows

variable (Hash : α → α → α) (leaf : α) (p : ℕ)

/-- The leaf is not among the first `n`, or the subtree that covers it is in `inner`, at level
`j` or above. -/
def Waiting (n j : ℕ) (s : State α) : Prop :=
  (n ≤ p ∧ s.branch = some [] ∧ s.matchlevel = -1) ∨
    ∃ k B, j ≤ k ∧ s.branch = some B ∧ s.matchlevel = k ∧ n.testBit k = true ∧
      Path Hash leaf p k (s.inner k) (n / 2 ^ k - 1) B

/-- On the way up: the node `y` with the number `i` at level `j` covers the leaf if `matchh` is
set, and otherwise the leaf is waiting. -/
def Follows (n j : ℕ) (y : α) (i : ℕ) (matchh : Bool) (s : State α) : Prop :=
  if matchh then ∃ B, s.branch = some B ∧ Path Hash leaf p j y i B
  else Waiting Hash leaf p n j s

variable {Hash leaf p}

/-- What the definition of `Waiting` looks at. -/
theorem Waiting.congr {n j : ℕ} {s s' : State α} (h : Waiting Hash leaf p n j s)
    (hbranch : s'.branch = s.branch) (hlevel : s'.matchlevel = s.matchlevel)
    (hinner : s'.inner = s.inner) : Waiting Hash leaf p n j s' := by
  rw [Waiting, hbranch, hlevel, hinner]
  exact h

theorem Follows.congr {n j i : ℕ} {y : α} {matchh : Bool} {s s' : State α}
    (h : Follows Hash leaf p n j y i matchh s) (hbranch : s'.branch = s.branch)
    (hlevel : s'.matchlevel = s.matchlevel) (hinner : s'.inner = s.inner) :
    Follows Hash leaf p n j y i matchh s' := by
  cases matchh with
  | true =>
    obtain ⟨B, hB, hpath⟩ := h
    exact ⟨B, hbranch.trans hB, hpath⟩
  | false => exact Waiting.congr h hbranch hlevel hinner

/-- One round: the node is the right one of two neighbours. -/
theorem Follows.up {n j q : ℕ} {y : α} {matchh : Bool} {s : State α}
    (h : Follows Hash leaf p n j y (2 * q + 1) matchh s)
    (hn : n.testBit j = true → n / 2 ^ j = 2 * q + 1) :
    Follows Hash leaf p n (j + 1) (Hash (s.inner j) y) q (s.follow j y matchh).2
      (s.follow j y matchh).1 ∧ (matchh = true → (s.follow j y matchh).2 = true) := by
  cases matchh with
  | true =>
    obtain ⟨B, hB, hpath⟩ := h
    have hfollow : s.follow j y true = (s.push (s.inner j), true) := by
      rw [State.follow, if_neg (by simp [hB]), if_pos rfl]
    rw [hfollow]
    refine ⟨⟨B ++ [s.inner j], ?_, hpath.right⟩, fun _ => rfl⟩
    rw [State.push, hB]
    rfl
  | false =>
    refine ⟨?_, fun hno => by cases hno⟩
    rcases h with ⟨hp, hB, hlevel⟩ | ⟨k, B, hjk, hB, hlevel, hbit, hpath⟩
    · have hfollow : s.follow j y false = (s, false) := by
        rw [State.follow, if_neg (by simp [hB]), if_neg (by simp), if_neg (by rw [hlevel]; omega)]
      rw [hfollow]
      exact .inl ⟨hp, hB, hlevel⟩
    · by_cases hk : k = j
      · -- the left neighbour covers the leaf
        subst hk
        have hfollow : s.follow k y false = (s.push y, true) := by
          rw [State.follow, if_neg (by simp [hB]), if_neg (by simp), if_pos hlevel]
        rw [hn hbit, Nat.add_sub_cancel] at hpath
        rw [hfollow]
        refine ⟨B ++ [y], ?_, hpath.left⟩
        rw [State.push, hB]
        rfl
      · have hfollow : s.follow j y false = (s, false) := by
          rw [State.follow, if_neg (by simp [hB]), if_neg (by simp),
            if_neg (by rw [hlevel]; exact_mod_cast hk)]
        rw [hfollow]
        exact .inr ⟨k, B, by omega, hB, hlevel, hbit, hpath⟩

variable [DecidableEq α]

/-- **The loop keeps track of the leaf.**  `A` holds of the levels it goes through: a round there
combines the last two of an even number of nodes. -/
theorem Follows.climb {compare : Bool} {n count : ℕ} {inner : ℕ → α} {A : ℕ → Prop}
    (hA : ∀ j, A j → count.testBit j = false → A (j + 1) ∧ ∃ q, count / 2 ^ j = 2 * q + 2 ∧
      (n.testBit j = true → n / 2 ^ j = 2 * q + 1)) :
    ∀ {levels level level' : ℕ} {h h' : α} {matchh matchh' : Bool} {s s' : State α},
      climb Hash compare levels level h matchh s = some (level', h', matchh', s') →
      s.count = count → s.inner = inner → A level →
      Follows Hash leaf p n level h (count / 2 ^ level - 1) matchh s →
      s'.count = count ∧ s'.inner = inner ∧ A level' ∧ count.testBit level' = true ∧
        Follows Hash leaf p n level' h' (count / 2 ^ level' - 1) matchh' s' ∧
        (matchh = true → matchh' = true) ∧ level ≤ level' := by
  intro levels
  induction levels with
  | zero =>
    intro level level' h h' matchh matchh' s s' hrun
    cases hrun
  | succ levels ih =>
    intro level level' h h' matchh matchh' s s' hrun hcount hinner hlevel hfollows
    rw [Merkle.climb, hcount] at hrun
    by_cases htest : count.testBit level = true
    · rw [if_pos htest] at hrun
      simp only [Option.some.injEq, Prod.mk.injEq] at hrun
      obtain ⟨rfl, rfl, rfl, rfl⟩ := hrun
      exact ⟨hcount, hinner, hlevel, htest, hfollows, fun hm => hm, le_refl _⟩
    · rw [if_neg htest] at hrun
      obtain ⟨hnext, q, hq, hn⟩ := hA level hlevel (by simpa using htest)
      obtain ⟨hfc, hfi, -⟩ := s.follow_spec level h matchh
      have hq' : count / 2 ^ (level + 1) - 1 = q := by
        rw [pow_succ, ← Nat.div_div_eq_div_mul, hq]
        omega
      rw [hq] at hfollows
      obtain ⟨hup, hsticky⟩ := hfollows.up hn
      simp only [hfi] at hrun
      obtain ⟨hc, hi, hA', hbit, hfol, hmono, hle⟩ := ih hrun (by simpa [hfc] using hcount)
        (by simpa [hfi] using hinner) hnext (by rw [hq']; exact hup.congr rfl rfl hfi.symm)
      exact ⟨hc, hi, hA', hbit, hfol, fun hm => hmono (hsticky hm), by omega⟩

/-! ## All leaves -/

/-- One more leaf. -/
theorem Waiting.addLeaf {n : ℕ} {x : α} {s s' : State α} (h : Waiting Hash leaf p n 0 s)
    (hcount : s.count = n) (hlen : n + 1 < 2 ^ 32) (hx : n = p → x = leaf)
    (hrun : addLeaf Hash p s x = some s') :
    Waiting Hash leaf p (n + 1) 0 s' ∧ s'.count = n + 1 := by
  have hmod : (s.count + 1) % 2 ^ 32 = n + 1 := by rw [hcount, Nat.mod_eq_of_lt hlen]
  unfold Merkle.addLeaf at hrun
  simp only [Option.bind_eq_bind, Option.bind_eq_some_iff] at hrun
  obtain ⟨⟨level, y, matchh, mid⟩, hclimb, hrun⟩ := hrun
  obtain rfl := Option.some.inj hrun
  have hA : ∀ j, 2 ^ j ∣ n + 1 → (n + 1).testBit j = false → 2 ^ (j + 1) ∣ n + 1 ∧
      ∃ q, (n + 1) / 2 ^ j = 2 * q + 2 ∧ (n.testBit j = true → n / 2 ^ j = 2 * q + 1) := by
    intro j hdvd hbit
    obtain ⟨q, hq⟩ := exists_eq_of_dvd hdvd (Nat.succ_pos n) hbit
    have hdiv : (n + 1) / 2 ^ j = 2 * q + 2 := by
      rw [hq, Nat.mul_div_cancel _ (by positivity)]
    refine ⟨⟨q + 1, by rw [hq]; ring⟩, q, hdiv, fun _ => ?_⟩
    have hsucc := Nat.succ_div_of_dvd hdvd
    omega
  have hstart : Follows Hash leaf p n 0 x ((n + 1) / 2 ^ 0 - 1) (s.count == p)
      { s with count := (s.count + 1) % 2 ^ 32 } := by
    rw [hcount]
    by_cases hp : n = p
    · -- the leaf itself
      rcases h with ⟨-, hB, -⟩ | ⟨k, B, -, -, -, hbit, hpath⟩
      · rw [hx hp, show (n == p) = true by simpa using hp]
        refine ⟨[], hB, ?_⟩
        rw [pow_zero, Nat.div_one, Nat.add_sub_cancel, hp]
        exact path_zero
      · have hindex := hpath.index
        have hle := Nat.ge_two_pow_of_testBit hbit
        have hone := (Nat.one_le_div_iff (by positivity)).mpr hle
        rw [hp] at hindex hone
        omega
    · rw [show (n == p) = false by simpa using hp]
      exact Waiting.congr h rfl rfl rfl
  obtain ⟨hc, -, hdvd, hbit, hfollows, hsticky, -⟩ :=
    Follows.climb hA hclimb hmod rfl (by simp) hstart
  refine ⟨?_, hc⟩
  cases matchh with
  | true =>
    obtain ⟨B, hB, hpath⟩ := hfollows
    exact .inr ⟨level, B, Nat.zero_le _, hB, rfl, hbit, by simpa using hpath⟩
  | false =>
    have hne : n ≠ p := by
      intro hp
      have := hsticky (by simpa [hcount] using hp)
      cases this
    rcases hfollows with ⟨hp, hB, hlevel⟩ | ⟨k, B, hk, hB, hlevel, hbitk, hpath⟩
    · exact .inl ⟨by omega, hB, hlevel⟩
    · -- the subtree is above the level of the new one, and stays where it is
      have hodd : ¬ 2 ^ (level + 1) ∣ n + 1 := fun hd => not_testBit_of_dvd hd hbit
      have hkne : k ≠ level := by
        rintro rfl
        have hsucc := Nat.succ_div_of_dvd hdvd
        rw [testBit_iff] at hbit hbitk
        omega
      have hnot : ¬ 2 ^ k ∣ n + 1 := fun hd => hodd (dvd_trans (pow_dvd_pow 2 (by omega)) hd)
      have hdiv := Nat.succ_div_of_not_dvd hnot
      refine .inr ⟨k, B, Nat.zero_le _, hB, hlevel, ?_, ?_⟩
      · rw [testBit_iff, hdiv]
        exact testBit_iff.mp hbitk
      · rw [hdiv]
        simpa [Function.update_of_ne hkne] using hpath

/-- All leaves. -/
theorem waiting_foldlM [Inhabited α] : ∀ {l : List α} {s : State α}, l.length < 2 ^ 32 →
    (∀ h : p < l.length, l.get ⟨p, h⟩ = leaf) →
    l.foldlM (addLeaf Hash p)
      { count := 0, inner := fun _ => default, mutated := false, matchlevel := -1
        branch := some [] } = some s →
    Waiting Hash leaf p l.length 0 s ∧ s.count = l.length := by
  intro l
  induction l using List.reverseRecOn with
  | nil =>
    intro s _ _ hrun
    obtain rfl := Option.some.inj hrun
    exact ⟨.inl ⟨Nat.zero_le _, rfl, rfl⟩, rfl⟩
  | append_singleton l x ih =>
    intro s hlen hleaf hrun
    rw [List.length_append, List.length_singleton] at hlen ⊢
    rw [List.foldlM_append] at hrun
    simp only [Option.bind_eq_bind, Option.bind_eq_some_iff, List.foldlM_cons, List.foldlM_nil,
      Option.pure_def, Option.some.injEq] at hrun
    obtain ⟨mid, hmid, s', hadd, rfl⟩ := hrun
    obtain ⟨hwaiting, hcount⟩ := ih (by omega) (fun h => by
      have := hleaf (by rw [List.length_append]; omega)
      simpa [List.getElem_append_left h] using this) hmid
    refine hwaiting.addLeaf hcount hlen (fun hp => ?_) hadd
    subst hp
    have := hleaf (by simp)
    simpa using this

/-! ## The final sweep -/

/-- At the head of a round of the sweep: the node at hand covers the leaf, or the leaf waits
above it. -/
def Sweeping (Hash : α → α → α) (leaf : α) (p n level : ℕ) (y : α) (matchh : Bool)
    (s : State α) : Prop :=
  if matchh then ∃ B, s.branch = some B ∧ Path Hash leaf p level y (s.count / 2 ^ level - 1) B
  else Waiting Hash leaf p n (level + 1) s

/-- **The sweep** ends with a branch that leads to the root. -/
theorem Sweeping.sweep {n : ℕ} (hp : p < n) (hn : n < 2 ^ 31) : ∀ {rounds level : ℕ} {y root : α}
    {matchh : Bool} {s s' : State α}, Sweeping Hash leaf p n level y matchh s →
    SweepCount n s.count level → s.count.testBit level = true → ¬ 2 ^ (level + 1) ∣ n →
    sweep Hash rounds level y matchh s = some (root, s') →
    ∃ B, s'.branch = some B ∧ computeMerkleRootFromBranch Hash leaf B p = root := by
  intro rounds
  induction rounds with
  | zero =>
    intro level y root matchh s s' _ _ _ _ hrun
    cases hrun
  | succ rounds ih =>
    intro level y root matchh s s' hsweep hcount hbit hodd hrun
    rw [Merkle.sweep] at hrun
    by_cases htop : s.count = 2 ^ level
    · rw [if_pos htop] at hrun
      simp only [Option.some.injEq, Prod.mk.injEq] at hrun
      obtain ⟨rfl, rfl⟩ := hrun
      cases matchh with
      | true =>
        obtain ⟨B, hB, hpath⟩ := hsweep
        exact ⟨B, hB, hpath.root⟩
      | false =>
        -- nothing can wait above the root
        exfalso
        rcases hsweep with ⟨hle, -⟩ | ⟨k, B, hk, -, -, hbitk, -⟩
        · omega
        · have hone := hcount.div
          rw [htop, Nat.div_self (by positivity)] at hone
          have hzero : (n - 1) / 2 ^ level = 0 := by omega
          have hsmall := (Nat.div_eq_zero_iff).mp hzero
          have hlarge := Nat.ge_two_pow_of_testBit hbitk
          have hpow : 2 ^ (level + 1) ≤ 2 ^ k := Nat.pow_le_pow_right (by omega) hk
          have hpos : 0 < 2 ^ level := by positivity
          rw [pow_succ] at hpow
          omega
    · rw [if_neg htop] at hrun
      simp only [Option.bind_eq_bind, Option.bind_eq_some_iff] at hrun
      obtain ⟨⟨level', y', matchh', mid⟩, hclimb, hrun⟩ := hrun
      obtain ⟨hcount', q, hq, hq'⟩ := hcount.double hbit
      have hlong : 2 ^ level < n := by
        by_contra hcon
        have hzero : (n - 1) / 2 ^ level = 0 := Nat.div_eq_of_lt (by omega)
        exact htop (by rw [hcount, hzero, zero_add, one_mul])
      have hmod : (s.count + 2 ^ level) % 2 ^ 32 = s.count + 2 ^ level := by
        have hsmall := hcount'.le hn hlong
        exact Nat.mod_eq_of_lt (by omega)
      have hstart : Follows Hash leaf p n (level + 1) (Hash y y)
          ((s.count + 2 ^ level) / 2 ^ (level + 1) - 1) matchh
          { (if matchh then s.push y else s) with
            count := ((if matchh then s.push y else s).count + 2 ^ level) % 2 ^ 32 } := by
        rw [hq', Nat.add_sub_cancel]
        cases matchh with
        | true =>
          obtain ⟨B, hB, hpath⟩ := hsweep
          rw [hq, Nat.add_sub_cancel] at hpath
          refine ⟨B ++ [y], ?_, hpath.left⟩
          show s.branch.map (· ++ [y]) = _
          rw [hB]
          rfl
        | false => exact Waiting.congr hsweep rfl rfl rfl
      have hc : ((if matchh then s.push y else s).count + 2 ^ level) % 2 ^ 32
          = s.count + 2 ^ level := by
        rw [← hmod]
        split <;> rfl
      obtain ⟨hmid, -, hA, hbit', hfollows, -, hle⟩ :=
        Follows.climb (A := SweepCount n (s.count + 2 ^ level)) (fun j hj => hj.up) hclimb hc rfl
          hcount' hstart
      have hodd' : ¬ 2 ^ (level' + 1) ∣ n := fun hd =>
        hodd (dvd_trans (pow_dvd_pow 2 (by omega)) hd)
      refine ih ?_ (by rw [hmid]; exact hA) (by rw [hmid]; exact hbit') hodd' hrun
      cases matchh' with
      | true =>
        obtain ⟨B, hB, hpath⟩ := hfollows
        exact ⟨B, hB, by rw [hmid]; exact hpath⟩
      | false =>
        rcases hfollows with hfar | ⟨k, B, hk, hB, hlevel, hbitk, hpath⟩
        · exact .inl hfar
        · -- a subtree at this very level would have been combined with a right neighbour
          have hkne : k ≠ level' := by
            rintro rfl
            have hdiv := hA.div
            rw [testBit_iff] at hbit' hbitk
            have hnot : ¬ 2 ^ k ∣ n := fun hd => hodd (dvd_trans (pow_dvd_pow 2 hle) hd)
            have hsucc := Nat.succ_div_of_not_dvd (a := n - 1) (b := 2 ^ k)
              (by rwa [Nat.sub_add_cancel (by omega)])
            rw [Nat.sub_add_cancel (by omega)] at hsucc
            omega
          exact .inr ⟨k, B, by omega, hB, hlevel, hbitk, hpath⟩

end Follows

/-! ## Agreement -/

variable [DecidableEq α] [Inhabited α]

/-- The branch of a leaf leads to the root that the computation returns. -/
theorem computeMerkleRootFromBranch_of_computation {Hash : α → α → α} {l : List α} {p : ℕ}
    (hp : p < l.length) (hlen : l.length < 2 ^ 31) {root : α} {mutated : Bool}
    {branch : Option (List α)}
    (hrun : merkleComputation Hash l p true = some (root, mutated, branch)) :
    ∃ B, branch = some B ∧ computeMerkleRootFromBranch Hash (l.get ⟨p, hp⟩) B p = root := by
  have hne : l ≠ [] := List.ne_nil_of_length_pos (by omega)
  rw [merkleComputation, if_neg hne] at hrun
  simp only [Option.bind_eq_bind, Option.bind_eq_some_iff, if_true] at hrun
  obtain ⟨s, hleaves, level, hlevel, ⟨h, s'⟩, hsweep, hrun⟩ := hrun
  simp only [Option.some.injEq, Prod.mk.injEq] at hrun
  obtain ⟨rfl, -, rfl⟩ := hrun
  obtain ⟨hwaiting, hcount⟩ := waiting_foldlM (by omega)
    (show ∀ h : p < l.length, l.get ⟨p, h⟩ = l.get ⟨p, hp⟩ from fun _ => rfl) hleaves
  obtain ⟨b, hb, hbit⟩ := exists_testBit (n := l.length) (k := 32) (by omega) (by omega)
  obtain ⟨level', hlevel', hdvd, -, hset⟩ := lowestLevel_spec 32 0 (by simp : 2 ^ 0 ∣ l.length)
    ⟨b, Nat.zero_le _, by omega, hbit⟩
  rw [hcount, hlevel'] at hlevel
  obtain rfl := Option.some.inj hlevel
  have hcount' : SweepCount l.length s.count level' := by
    obtain ⟨q, hq⟩ := hdvd
    have hpos : 0 < 2 ^ level' := by positivity
    have hqpos : 0 < q := Nat.pos_of_ne_zero (by
      rintro rfl
      omega)
    have hsucc := Nat.succ_div_of_dvd (a := l.length - 1) (b := 2 ^ level')
      (by rw [Nat.sub_add_cancel (by omega)]; exact ⟨q, hq⟩)
    rw [Nat.sub_add_cancel (by omega)] at hsucc
    rw [SweepCount, hcount, ← hsucc, hq, Nat.mul_div_cancel_left _ hpos, mul_comm]
  have hstart : Sweeping Hash (l.get ⟨p, hp⟩) p l.length level' (s.inner level')
      (s.matchlevel == level') s := by
    rcases hwaiting with ⟨hle, -⟩ | ⟨k, B, -, hB, hk, hbitk, hpath⟩
    · omega
    · by_cases hkl : k = level'
      · subst hkl
        rw [show (s.matchlevel == (k : ℤ)) = true by simpa using hk]
        exact ⟨B, hB, by rw [hcount]; exact hpath⟩
      · rw [show (s.matchlevel == (level' : ℤ)) = false by simpa [hk] using hkl]
        have hle : level' ≤ k := by
          by_contra hcon
          exact not_testBit_of_dvd (dvd_trans (pow_dvd_pow 2 (by omega)) hdvd) hbitk
        exact .inr ⟨k, B, by omega, hB, hk, hbitk, hpath⟩
  exact hstart.sweep hp hlen hcount' (by rw [hcount]; exact hset)
    (fun hd => not_testBit_of_dvd hd hset) hsweep

/-- **Agreement.**  Whatever branch is asked for, the computation returns the root of the tree
built level by level, and the branch of every leaf leads to it. -/
theorem merkleComputation_agrees (Hash : α → α → α) {l : List α} (hne : l ≠ [])
    (hlen : l.length < 2 ^ 31) :
    (∃ mutated, computeMerkleRoot Hash l = some (PaddedTree.levelRoot Hash l, mutated)) ∧
    (∀ branchpos pbranch, ∃ mutated branch, merkleComputation Hash l branchpos pbranch
      = some (PaddedTree.levelRoot Hash l, mutated, branch)) ∧
    ∀ p (hp : p < l.length), ∃ branch, computeMerkleBranch Hash l p = some branch ∧
      computeMerkleRootFromBranch Hash (l.get ⟨p, hp⟩) branch p
        = PaddedTree.levelRoot Hash l := by
  have hroot : ∀ branchpos pbranch, ∃ mutated branch, merkleComputation Hash l branchpos pbranch
      = some (PaddedTree.levelRoot Hash l, mutated, branch) := by
    intro branchpos pbranch
    obtain ⟨d, mutated, branch, hrun, hd, hd', -⟩ :=
      merkleComputation_spec Hash hne hlen branchpos pbranch
    exact ⟨mutated, branch, by rw [hrun, PaddedTree.levelRoot_eq_root Hash hne hd hd']⟩
  refine ⟨?_, hroot, fun p hp => ?_⟩
  · obtain ⟨mutated, branch, hrun⟩ := hroot (2 ^ 32 - 1) false
    refine ⟨mutated, ?_⟩
    rw [computeMerkleRoot, hrun]
    rfl
  · obtain ⟨mutated, branch, hrun⟩ := hroot p true
    obtain ⟨B, rfl, hfold⟩ := computeMerkleRootFromBranch_of_computation hp hlen hrun
    refine ⟨B, ?_, hfold⟩
    rw [computeMerkleBranch, hrun]
    rfl

/-- Hashes as terms: three leaves, the branch of the last one, and the root. -/
theorem merkleComputation_agrees_terms :
    let l : List (FreeMagma ℕ) := [.of 1, .of 2, .of 3]
    computeMerkleBranch FreeMagma.mul l 2 = some [.of 3, .mul (.of 1) (.of 2)] ∧
      computeMerkleRootFromBranch FreeMagma.mul (.of 3) [.of 3, .mul (.of 1) (.of 2)] 2
        = PaddedTree.levelRoot FreeMagma.mul l := by
  have hbranch : computeMerkleBranch FreeMagma.mul [.of 1, .of 2, .of 3] 2
      = some [.of 3, .mul (.of 1) (.of 2)] := by decide
  refine ⟨hbranch, ?_⟩
  obtain ⟨branch, hrun, hfold⟩ := (merkleComputation_agrees FreeMagma.mul
    (l := [.of 1, .of 2, .of 3]) (by simp) (by decide)).2.2 2 (by decide)
  obtain rfl := Option.some.inj (hbranch.symm.trans hrun)
  exact hfold

end Merkle
