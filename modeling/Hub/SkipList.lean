/-
# Building the skip list

`BuildSkip` (`libs/server/chain.cpp`) sets the `pskip` pointer of one block with the help of
`GetAncestor`, which itself follows the `pskip` pointers that are there already.  The blocks
get their pointers in no particular order: `CacheAllBlockInfos` goes through a hash map, so
that a block may be linked long before its parent is.

A `BlockIndex` carries the invariant that a pointer leads to the ancestor at the height
`GetSkipHeight`.  `buildSkip` keeps it, whatever else is linked, so every sequence of calls
leads to an index in which `GetAncestor` is the walk along `pprev`
(`getAncestorAt_buildSkips`).
-/
import Hub.Chain
import Mathlib.Logic.Function.Basic

namespace BlockIndex

variable {ι : Type}

/-- The entries of a block tree, before any call of `BuildSkip`. -/
def unlinked (F : Forest ι) (nChainWork : ι → ℕ) : BlockIndex ι where
  pprev := F.parent
  nHeight := F.height
  nChainWork := nChainWork
  pskip := fun _ => none
  height_root := F.height_root
  height_child := F.height_child
  skip := by simp

variable (T : BlockIndex ι)

/-- `CBlockIndex::GetAncestor`, with the height as an `int`. -/
def getAncestorAt (b : ι) (height : ℤ) : Option ι :=
  if height > T.nHeight b ∨ height < 0 then none
  else T.getAncestorLoop height.toNat (T.nHeight b) b (T.nHeight b)

/-- **`GetAncestor` on any height.** -/
theorem getAncestorAt_eq (b : ι) (height : ℤ) :
    T.getAncestorAt b height = if 0 ≤ height then T.forest.ancestor? height.toNat b else none := by
  unfold getAncestorAt
  by_cases hneg : height < 0
  · rw [if_pos (.inr hneg), if_neg (by omega)]
  · rw [if_pos (by omega : 0 ≤ height)]
    by_cases hgt : height > T.nHeight b
    · rw [if_pos (.inl hgt), Forest.ancestor?, if_neg]
      show ¬ height.toNat ≤ T.nHeight b
      omega
    · rw [if_neg (by omega), T.getAncestorLoop_eq _ _ b (Nat.le_refl _) (by omega)]

/-- The ancestor of the parent at the height of the skip is the ancestor of the block. -/
theorem up_of_getAncestorAt {b p s : ι} (hp : T.pprev b = some p)
    (h : T.getAncestorAt p (getSkipHeight (T.nHeight b)) = some s) :
    Forest.up T.pprev (T.nHeight b - getSkipHeight (T.nHeight b)) b = some s := by
  have hh := T.height_child b p hp
  have hlt := getSkipHeight_lt (h := T.nHeight b) (by omega)
  rw [getAncestorAt_eq, if_pos (by omega), Int.toNat_natCast] at h
  have hle : T.forest.Le p b := Forest.Le.of_parent hp
  have hk : getSkipHeight (T.nHeight b) ≤ T.forest.height p := by
    show _ ≤ T.nHeight p
    omega
  rw [← hle.ancestor?_eq hk, Forest.ancestor?, if_pos] at h
  · exact h
  · show _ ≤ T.nHeight b
    omega

variable [DecidableEq ι]

/-- `CBlockIndex::BuildSkip`. -/
def buildSkip (b : ι) : BlockIndex ι where
  pprev := T.pprev
  nHeight := T.nHeight
  nChainWork := T.nChainWork
  pskip := match T.pprev b with
    | some p => Function.update T.pskip b (T.getAncestorAt p (getSkipHeight (T.nHeight b)))
    | none => T.pskip
  height_root := T.height_root
  height_child := T.height_child
  skip := by
    intro c s hs
    cases hp : T.pprev b with
    | none =>
      rw [hp] at hs
      exact T.skip c s hs
    | some p =>
      simp only [hp] at hs
      by_cases hc : c = b
      · subst hc
        rw [Function.update_self] at hs
        exact T.up_of_getAncestorAt hp hs
      · rw [Function.update_of_ne hc] at hs
        exact T.skip c s hs

@[simp] theorem forest_buildSkip (b : ι) : (T.buildSkip b).forest = T.forest := rfl

@[simp] theorem nChainWork_buildSkip (b : ι) : (T.buildSkip b).nChainWork = T.nChainWork := rfl

/-- Calls of `BuildSkip`, one after the other. -/
def buildSkips (order : List ι) : BlockIndex ι := order.foldl (fun T b => T.buildSkip b) T

@[simp] theorem forest_buildSkips (order : List ι) : (T.buildSkips order).forest = T.forest := by
  unfold buildSkips
  induction order generalizing T with
  | nil => rfl
  | cons b order ih => rw [List.foldl_cons, ih, forest_buildSkip]

@[simp] theorem nChainWork_buildSkips (order : List ι) :
    (T.buildSkips order).nChainWork = T.nChainWork := by
  unfold buildSkips
  induction order generalizing T with
  | nil => rfl
  | cons b order ih => rw [List.foldl_cons, ih, nChainWork_buildSkip]

/-- **The skip list.**  Whatever the order in which the blocks of a tree are linked, a block
finds its ancestors: at the heights from 0 up to its own the block that as many steps along
`pprev` lead to, and none at any other height. -/
theorem getAncestorAt_buildSkips (F : Forest ι) (nChainWork : ι → ℕ) (order : List ι) (b : ι)
    (height : ℤ) :
    (0 ≤ height → height ≤ F.height b →
      ∃ a, Forest.up F.parent (F.height b - height.toNat) b = some a ∧
        ((unlinked F nChainWork).buildSkips order).getAncestorAt b height = some a) ∧
    (¬ (0 ≤ height ∧ height ≤ F.height b) →
      ((unlinked F nChainWork).buildSkips order).getAncestorAt b height = none) := by
  have hF : (unlinked F nChainWork).forest = F := rfl
  rw [getAncestorAt_eq, forest_buildSkips, hF]
  constructor
  · intro hpos hle
    obtain ⟨a, ha⟩ := Forest.up_isSome (F := F) (b := b) (n := F.height b - height.toNat)
      (Nat.sub_le _ _)
    refine ⟨a, ha, ?_⟩
    rw [if_pos hpos, Forest.ancestor?, if_pos (by omega), ha]
  · intro hout
    by_cases hpos : 0 ≤ height
    · rw [if_pos hpos, Forest.ancestor?, if_neg (by omega)]
    · rw [if_neg hpos]

end BlockIndex
