/-
# Trees over a list that repeat what is missing

A list of leaves is folded into one value by a binary function `H`: level by level,
neighbours are combined, and a node without a right neighbour is combined with itself.
`root H d l` is the value at the top of the tree of depth `d` over `l`, by halves: the
left half of a list that does not fit in one half is a complete tree, and a list that
fits in one half is used twice.

Two lists can have the same root.  When `H` is injective and no leaf is a value of `H`,
one of them then has *twins*, two neighbouring complete subtrees with the same leaves.

* `eq_or_twins_of_root_eq` : lists of the same depth;
* `depth_eq_of_root_eq` : a root tells the depth of its tree;
* `not_twins_of_nodup` : a list without repetition has no twins;
* `levelRoot_eq_root` : the same root, level by level.
-/
import Mathlib.Algebra.Order.Ring.Nat
import Mathlib.Data.List.Nodup
import Mathlib.Logic.Function.Basic
import Mathlib.Tactic.Common
import Mathlib.Tactic.Positivity
import Mathlib.Tactic.Ring

namespace PaddedTree

variable {α : Type*}

/-! ## Roots and twins -/

/-- The root of the tree of depth `d` over `l`. -/
def root [Inhabited α] (H : α → α → α) : ℕ → List α → α
  | 0, l => l.headI
  | d + 1, l =>
      if 2 ^ d < l.length then H (root H d (l.take (2 ^ d))) (root H d (l.drop (2 ^ d)))
      else H (root H d l) (root H d l)

/-- The `i`-th block of `2 ^ j` leaves. -/
def block (j i : ℕ) (l : List α) : List α := (l.drop (i * 2 ^ j)).take (2 ^ j)

/-- Two neighbouring complete blocks, a left and a right child, with the same leaves. -/
def Twins (l : List α) : Prop :=
  ∃ j i, (2 * i + 2) * 2 ^ j ≤ l.length ∧ block j (2 * i) l = block j (2 * i + 1) l

theorem length_block {j i : ℕ} {l : List α} (h : (i + 1) * 2 ^ j ≤ l.length) :
    (block j i l).length = 2 ^ j := by
  rw [add_mul, one_mul] at h
  rw [block, List.length_take, List.length_drop]
  omega

/-- A block of twice the size is two blocks. -/
theorem block_succ (j i : ℕ) (l : List α) :
    block (j + 1) i l = block j (2 * i) l ++ block j (2 * i + 1) l := by
  have hi : i * 2 ^ (j + 1) = 2 * i * 2 ^ j := by ring
  have hdrop : l.drop ((2 * i + 1) * 2 ^ j) = (l.drop (2 * i * 2 ^ j)).drop (2 ^ j) := by
    rw [List.drop_drop]
    congr 1
    ring
  rw [block, block, block, hi, hdrop, pow_succ, mul_two, List.take_add]

/-- The root of a block of twice the size. -/
theorem root_block_succ [Inhabited α] (H : α → α → α) {j i : ℕ} {l : List α}
    (h : (2 * i + 2) * 2 ^ j ≤ l.length) :
    root H (j + 1) (block (j + 1) i l)
      = H (root H j (block j (2 * i) l)) (root H j (block j (2 * i + 1) l)) := by
  have hleft : (block j (2 * i) l).length = 2 ^ j := by
    apply length_block
    refine le_trans (Nat.mul_le_mul_right _ ?_) h
    omega
  have hright : (block j (2 * i + 1) l).length = 2 ^ j := length_block h
  have hpos : 0 < 2 ^ j := by positivity
  rw [block_succ, root, if_pos]
  · rw [List.take_left' hleft, List.drop_left' hleft]
  · rw [List.length_append]
    omega

/-! ## Twins in a part of a list -/

theorem Twins.of_take {l : List α} {n : ℕ} (h : Twins (l.take n)) : Twins l := by
  obtain ⟨j, i, hlen, heq⟩ := h
  have hn : (2 * i + 2) * 2 ^ j ≤ n := by
    rw [List.length_take] at hlen
    omega
  -- a block that ends inside the prefix is the same block of the whole list
  have hblock : ∀ k, k + 1 ≤ 2 * i + 2 → block j k (l.take n) = block j k l := by
    intro k hk
    have hk' : (k + 1) * 2 ^ j ≤ n := le_trans (Nat.mul_le_mul_right _ hk) hn
    rw [add_mul, one_mul] at hk'
    rw [block, block, List.drop_take, List.take_take, min_eq_left (by omega)]
  refine ⟨j, i, ?_, ?_⟩
  · rw [List.length_take] at hlen
    omega
  · rw [← hblock _ (by omega), ← hblock _ (by omega)]
    exact heq

/-- Twins behind the first `2 ^ d` leaves, when at most as many follow. -/
theorem Twins.of_drop {l : List α} {d : ℕ} (hlen : l.length ≤ 2 * 2 ^ d)
    (h : Twins (l.drop (2 ^ d))) : Twins l := by
  obtain ⟨j, i, hij, heq⟩ := h
  rw [List.length_drop] at hij
  -- the twins fit in the second half, so its start is a multiple of their size
  have hjd : j + 1 ≤ d := by
    by_contra hcon
    have hle : 2 ^ d ≤ 2 ^ j := Nat.pow_le_pow_right (by omega) (by omega)
    have h2 : 2 * 2 ^ j ≤ (2 * i + 2) * 2 ^ j := Nat.mul_le_mul_right _ (by omega)
    have hpos : 0 < 2 ^ d := by positivity
    omega
  obtain ⟨e, rfl⟩ := Nat.exists_eq_add_of_le hjd
  have hpow : 2 ^ (j + 1 + e) = 2 * 2 ^ e * 2 ^ j := by ring
  have hblock : ∀ k, block j k (l.drop (2 ^ (j + 1 + e))) = block j (2 * 2 ^ e + k) l := by
    intro k
    rw [block, block, List.drop_drop, hpow]
    congr 2
    ring
  refine ⟨j, 2 ^ e + i, ?_, ?_⟩
  · have hsum : (2 * (2 ^ e + i) + 2) * 2 ^ j
        = 2 ^ (j + 1 + e) + (2 * i + 2) * 2 ^ j := by
      rw [hpow]
      ring
    have hpos : 0 < (2 * i + 2) * 2 ^ j := by positivity
    omega
  · have h2 : 2 * (2 ^ e + i) = 2 * 2 ^ e + 2 * i := by ring
    rw [h2, ← hblock, heq, hblock]
    congr 1

/-- A complete list whose halves agree has twins. -/
theorem twins_of_halves {l : List α} {d : ℕ} (hlen : l.length = 2 * 2 ^ d)
    (h : l.take (2 ^ d) = l.drop (2 ^ d)) : Twins l := by
  refine ⟨d, 0, by omega, ?_⟩
  have hright : (l.drop (2 ^ d)).length ≤ 2 ^ d := by
    rw [List.length_drop]
    omega
  simp only [block, mul_zero, zero_mul, List.drop_zero, zero_add, one_mul]
  rw [List.take_of_length_le hright, h]

/-- **A list without repetition has no twins.** -/
theorem not_twins_of_nodup {l : List α} (h : l.Nodup) : ¬ Twins l := by
  rintro ⟨j, i, hlen, heq⟩
  have hpos : 0 < 2 ^ j := by positivity
  have hright : (block j (2 * i + 1) l).length = 2 ^ j := length_block hlen
  obtain ⟨x, hx⟩ := List.exists_mem_of_length_pos (hright.symm ▸ hpos)
  have hsub : (block (j + 1) i l).Nodup := (h.sublist (List.drop_sublist _ _)).sublist
    (List.take_sublist _ _)
  rw [block_succ, List.nodup_append'] at hsub
  exact hsub.2.2 (heq ▸ hx) hx

/-! ## Equal roots -/

section Injective

variable [Inhabited α] {H : α → α → α} (hinj : Function.Injective2 H)

include hinj

/-- **Equal roots at the same depth.**  Two lists with the same root are equal, or one of
them has twins. -/
theorem eq_or_twins_of_root_eq (d : ℕ) : ∀ {l₁ l₂ : List α}, l₁ ≠ [] → l₂ ≠ [] →
    l₁.length ≤ 2 ^ d → l₂.length ≤ 2 ^ d → root H d l₁ = root H d l₂ →
    l₁ = l₂ ∨ Twins l₁ ∨ Twins l₂ := by
  induction d with
  | zero =>
    intro l₁ l₂ hne₁ hne₂ hlen₁ hlen₂ h
    have hpos₁ := List.length_pos_iff.mpr hne₁
    have hpos₂ := List.length_pos_iff.mpr hne₂
    obtain ⟨x, rfl⟩ := List.length_eq_one_iff.mp (by omega : l₁.length = 1)
    obtain ⟨y, rfl⟩ := List.length_eq_one_iff.mp (by omega : l₂.length = 1)
    exact .inl (congrArg (fun z => [z]) h)
  | succ d ih =>
    have hpos : 0 < 2 ^ d := by positivity
    have htake : ∀ {l : List α}, 2 ^ d < l.length →
        l.take (2 ^ d) ≠ [] ∧ (l.take (2 ^ d)).length ≤ 2 ^ d := by
      intro l hl
      refine ⟨?_, List.length_take_le _ _⟩
      rw [← List.length_pos_iff, List.length_take]
      omega
    have hdrop : ∀ {l : List α}, 2 ^ d < l.length → l.length ≤ 2 ^ (d + 1) →
        l.drop (2 ^ d) ≠ [] ∧ (l.drop (2 ^ d)).length ≤ 2 ^ d := by
      intro l hl hl'
      rw [pow_succ] at hl'
      rw [← List.length_pos_iff, List.length_drop]
      omega
    -- a short list against a long one: the two halves of the long one agree
    have hmixed : ∀ {l l' : List α}, 2 ^ d < l'.length → l'.length ≤ 2 ^ (d + 1) →
        root H d l = root H d (l'.take (2 ^ d)) → root H d l = root H d (l'.drop (2 ^ d)) →
        Twins l' := by
      intro l l' hlong hlen hleft hright
      obtain ⟨hnt, hlt⟩ := htake hlong
      obtain ⟨hnd, hld⟩ := hdrop hlong hlen
      have hlen' : l'.length ≤ 2 * 2 ^ d := by
        rw [pow_succ] at hlen
        omega
      rcases ih hnt hnd hlt hld (hleft.symm.trans hright) with heq | htw | htw
      · refine twins_of_halves (d := d) ?_ heq
        have := congrArg List.length heq
        rw [List.length_take, List.length_drop] at this
        omega
      · exact htw.of_take
      · exact htw.of_drop hlen'
    intro l₁ l₂ hne₁ hne₂ hlen₁ hlen₂ h
    rw [root, root] at h
    split at h <;> split at h
    · next h₁ h₂ =>
      obtain ⟨hleft, hright⟩ := hinj h
      have hlen₁' : l₁.length ≤ 2 * 2 ^ d := by
        rw [pow_succ] at hlen₁
        omega
      have hlen₂' : l₂.length ≤ 2 * 2 ^ d := by
        rw [pow_succ] at hlen₂
        omega
      obtain ⟨hn₁, hl₁⟩ := htake h₁
      obtain ⟨hn₂, hl₂⟩ := htake h₂
      obtain ⟨hn₁', hl₁'⟩ := hdrop h₁ hlen₁
      obtain ⟨hn₂', hl₂'⟩ := hdrop h₂ hlen₂
      rcases ih hn₁ hn₂ hl₁ hl₂ hleft with heq | htw | htw
      · rcases ih hn₁' hn₂' hl₁' hl₂' hright with heq' | htw | htw
        · refine .inl ?_
          rw [← List.take_append_drop (2 ^ d) l₁, heq, heq', List.take_append_drop]
        · exact .inr (.inl (htw.of_drop hlen₁'))
        · exact .inr (.inr (htw.of_drop hlen₂'))
      · exact .inr (.inl htw.of_take)
      · exact .inr (.inr htw.of_take)
    · next h₁ h₂ =>
      obtain ⟨hleft, hright⟩ := hinj h
      exact .inr (.inl (hmixed h₁ hlen₁ hleft.symm hright.symm))
    · next h₁ h₂ =>
      obtain ⟨hleft, hright⟩ := hinj h
      exact .inr (.inr (hmixed h₂ hlen₂ hleft hright))
    · next h₁ h₂ =>
      exact ih hne₁ hne₂ (by omega) (by omega) (hinj h).1

/-- Complete blocks with the same root are equal. -/
theorem eq_of_root_eq {d : ℕ} : ∀ {l₁ l₂ : List α}, l₁.length = 2 ^ d → l₂.length = 2 ^ d →
    root H d l₁ = root H d l₂ → l₁ = l₂ := by
  induction d with
  | zero =>
    intro l₁ l₂ h₁ h₂ h
    obtain ⟨x, rfl⟩ := List.length_eq_one_iff.mp h₁
    obtain ⟨y, rfl⟩ := List.length_eq_one_iff.mp h₂
    exact congrArg (fun z => [z]) h
  | succ d ih =>
    intro l₁ l₂ h₁ h₂ h
    have hpos : 0 < 2 ^ d := by positivity
    rw [pow_succ] at h₁ h₂
    rw [root, root, if_pos (by omega), if_pos (by omega)] at h
    obtain ⟨hleft, hright⟩ := hinj h
    have htake := ih (by rw [List.length_take]; omega) (by rw [List.length_take]; omega) hleft
    have hdrop := ih (by rw [List.length_drop]; omega) (by rw [List.length_drop]; omega) hright
    rw [← List.take_append_drop (2 ^ d) l₁, htake, hdrop, List.take_append_drop]

/-- **A root tells the depth of its tree**, when no leaf is a value of `H`. -/
theorem depth_eq_of_root_eq : ∀ {d₁ d₂ : ℕ} {l₁ l₂ : List α}, l₁ ≠ [] → l₂ ≠ [] →
    (∀ x ∈ l₁, ∀ a b, x ≠ H a b) → (∀ x ∈ l₂, ∀ a b, x ≠ H a b) →
    root H d₁ l₁ = root H d₂ l₂ → d₁ = d₂ := by
  have hhead : ∀ {l : List α}, l ≠ [] → l.headI ∈ l := by
    intro l hl
    obtain ⟨x, xs, rfl⟩ := List.exists_cons_of_ne_nil hl
    exact List.mem_cons_self
  -- the left child is over a prefix, so its leaves are leaves of the whole tree
  have hleft : ∀ (d : ℕ) {l : List α}, l ≠ [] → ∃ l' : List α, l' ≠ [] ∧ (∀ x ∈ l', x ∈ l) ∧
      ∃ b, root H (d + 1) l = H (root H d l') b := by
    intro d l hl
    have hpos : 0 < 2 ^ d := by positivity
    by_cases h : 2 ^ d < l.length
    · refine ⟨l.take (2 ^ d), ?_, fun x hx => List.mem_of_mem_take hx, _, by rw [root, if_pos h]⟩
      rw [← List.length_pos_iff, List.length_take]
      omega
    · exact ⟨l, hl, fun x hx => hx, _, by rw [root, if_neg h]⟩
  intro d₁
  induction d₁ with
  | zero =>
    intro d₂ l₁ l₂ hne₁ hne₂ hleaf₁ hleaf₂ h
    cases d₂ with
    | zero => rfl
    | succ d₂ =>
      obtain ⟨l', -, -, b, hb⟩ := hleft d₂ hne₂
      rw [hb] at h
      exact absurd h (hleaf₁ _ (hhead hne₁) _ _)
  | succ d₁ ih =>
    intro d₂ l₁ l₂ hne₁ hne₂ hleaf₁ hleaf₂ h
    obtain ⟨l₁', hne₁', hsub₁, b₁, hb₁⟩ := hleft d₁ hne₁
    rw [hb₁] at h
    cases d₂ with
    | zero => exact absurd h.symm (hleaf₂ _ (hhead hne₂) _ _)
    | succ d₂ =>
      obtain ⟨l₂', hne₂', hsub₂, b₂, hb₂⟩ := hleft d₂ hne₂
      rw [hb₂] at h
      rw [ih hne₁' hne₂' (fun x hx => hleaf₁ x (hsub₁ x hx))
        (fun x hx => hleaf₂ x (hsub₂ x hx)) (hinj h).1]

end Injective

/-! ## Level by level -/

/-- The level above a level: neighbours are combined, and a last node without a neighbour is
combined with itself. -/
def nextLevel (H : α → α → α) : List α → List α
  | [] => []
  | [x] => [H x x]
  | x :: y :: l => H x y :: nextLevel H l

theorem length_nextLevel (H : α → α → α) (l : List α) :
    (nextLevel H l).length = (l.length + 1) / 2 := by
  induction l using nextLevel.induct with
  | case1 => simp [nextLevel]
  | case2 x => simp [nextLevel]
  | case3 x y l ih =>
    rw [nextLevel, List.length_cons, ih, List.length_cons, List.length_cons]
    omega

/-- The node at the top of the levels over a list. -/
def levelRoot [Inhabited α] (H : α → α → α) (l : List α) : α :=
  match l with
  | [] => default
  | [x] => x
  | x :: y :: l => levelRoot H (nextLevel H (x :: y :: l))
termination_by l.length
decreasing_by
  rw [length_nextLevel]
  simp only [List.length_cons]
  omega

/-- Behind an even number of nodes the pairs start anew. -/
theorem nextLevel_append (H : α → α → α) {a : List α} (b : List α) (ha : a.length % 2 = 0) :
    nextLevel H (a ++ b) = nextLevel H a ++ nextLevel H b := by
  induction a using nextLevel.induct with
  | case1 => rfl
  | case2 x => simp at ha
  | case3 x y l ih =>
    rw [List.length_cons, List.length_cons] at ha
    rw [List.cons_append, List.cons_append, nextLevel, nextLevel, ih (by omega), List.cons_append]

/-- The first level is one level of the tree. -/
theorem root_succ [Inhabited α] (H : α → α → α) (d : ℕ) : ∀ {l : List α}, l ≠ [] →
    l.length ≤ 2 ^ (d + 1) → root H (d + 1) l = root H d (nextLevel H l) := by
  induction d with
  | zero =>
    intro l hne hlen
    match l, hne with
    | [x], _ => rfl
    | [x, y], _ => rfl
    | x :: y :: z :: l, _ =>
      simp only [List.length_cons] at hlen
      omega
  | succ d ih =>
    intro l hne hlen
    have hpow : 2 ^ (d + 1) = 2 * 2 ^ d := pow_succ' 2 d
    have hpow' : 2 ^ (d + 1 + 1) = 2 * 2 ^ (d + 1) := pow_succ' 2 (d + 1)
    have hpos : 0 < 2 ^ d := by positivity
    rw [root]
    by_cases hlong : 2 ^ (d + 1) < l.length
    · have htake : (l.take (2 ^ (d + 1))).length = 2 ^ (d + 1) := by
        rw [List.length_take]
        omega
      have hdrop : (l.drop (2 ^ (d + 1))).length = l.length - 2 ^ (d + 1) := List.length_drop
      have hsplit : nextLevel H l = nextLevel H (l.take (2 ^ (d + 1)))
          ++ nextLevel H (l.drop (2 ^ (d + 1))) := by
        rw [← nextLevel_append H _ (by omega), List.take_append_drop]
      have hhalf : (nextLevel H (l.take (2 ^ (d + 1)))).length = 2 ^ d := by
        rw [length_nextLevel]
        omega
      rw [if_pos hlong, ih (List.ne_nil_of_length_pos (by omega)) (by omega),
        ih (List.ne_nil_of_length_pos (by omega)) (by omega), root, if_pos, hsplit,
        List.take_left' hhalf, List.drop_left' hhalf]
      rw [length_nextLevel]
      omega
    · rw [if_neg hlong, ih hne (not_lt.mp hlong), root, if_neg]
      rw [length_nextLevel]
      omega

/-- **Level by level** the root is that of the lowest tree that has room for the leaves. -/
theorem levelRoot_eq_root [Inhabited α] (H : α → α → α) : ∀ {d : ℕ} {l : List α}, l ≠ [] →
    l.length ≤ 2 ^ d → 2 ^ d < 2 * l.length → levelRoot H l = root H d l := by
  intro d
  induction d with
  | zero =>
    intro l hne hlen _
    obtain ⟨x, rfl⟩ := List.length_eq_one_iff.mp
      (le_antisymm (by simpa using hlen) (List.length_pos_iff.mpr hne))
    rw [levelRoot]
    rfl
  | succ d ih =>
    intro l hne hlen hlong
    have hpow : 2 ^ (d + 1) = 2 * 2 ^ d := pow_succ' 2 d
    have hpos : 0 < 2 ^ d := by positivity
    rw [root_succ H d hne hlen]
    have hnext := length_nextLevel H l
    match l, hne with
    | [x], _ =>
      rw [List.length_singleton] at hlong
      omega
    | x :: y :: l, _ =>
      rw [levelRoot]
      exact ih (List.ne_nil_of_length_pos (by omega)) (by omega) (by omega)

end PaddedTree
