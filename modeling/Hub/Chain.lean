/-
# Block index and chains

`CBlockIndex` and `CChain` (`libs/server/chain.h`, `libs/server/chain.cpp`).  Block
index entries are pointers of some type `ι`; their fields are functions on `ι`.

`GetAncestor` jumps along `pskip` where it can.  It finds the same block as walking
along `pprev` (`getAncestor_eq`), so comparing its result with a block decides the
ancestor order of the forest (`getAncestor_eq_some_iff`).  `SetTip` stops as soon as
it meets a block that is already in place.  On a chain that is the path to its tip the
result is the path to the new tip (`setTip_isPath`).
-/
import Hub.Forest
import Mathlib.Data.Int.Notation

/-! ## The block index -/

/-- `InvertLowestOne`. -/
def invertLowestOne (n : ℕ) : ℕ := n &&& (n - 1)

/-- `GetSkipHeight`. -/
def getSkipHeight (height : ℕ) : ℕ :=
  if height < 2 then 0
  else if height % 2 = 1 then invertLowestOne (invertLowestOne (height - 1)) + 1
  else invertLowestOne height

/-- The `CBlockIndex` entries: what `createBlockIndexFor` and `BuildSkip` set up. -/
structure BlockIndex (ι : Type) where
  pprev : ι → Option ι
  nHeight : ι → ℕ
  nChainWork : ι → ℕ
  pskip : ι → Option ι
  height_root : ∀ b, pprev b = none → nHeight b = 0
  height_child : ∀ b p, pprev b = some p → nHeight b = nHeight p + 1
  skip : ∀ b s, pskip b = some s →
    Forest.up pprev (nHeight b - getSkipHeight (nHeight b)) b = some s

theorem invertLowestOne_le (n : ℕ) : invertLowestOne n ≤ n - 1 := Nat.and_le_right

/-- A skip goes down. -/
theorem getSkipHeight_lt {h : ℕ} (hpos : 0 < h) : getSkipHeight h < h := by
  unfold getSkipHeight
  split
  · exact hpos
  · split
    · have h1 := invertLowestOne_le (h - 1)
      have h2 := invertLowestOne_le (invertLowestOne (h - 1))
      omega
    · have h1 := invertLowestOne_le h
      omega

namespace BlockIndex

variable {ι : Type} (T : BlockIndex ι)

/-- The forest that `pprev` spans. -/
def forest : Forest ι where
  parent := T.pprev
  height := T.nHeight
  height_root := T.height_root
  height_child := T.height_child

/-- The loop of `GetAncestor` towards `height`; the first argument bounds the rounds. -/
def getAncestorLoop (height : ℕ) : ℕ → ι → ℕ → Option ι
  | 0, pindexWalk, _ => some pindexWalk
  | fuel + 1, pindexWalk, heightWalk =>
      if heightWalk > height then
        let heightSkip := getSkipHeight heightWalk
        let heightSkipPrev := getSkipHeight (heightWalk - 1)
        match T.pskip pindexWalk with
        | some s =>
            if heightSkip = height ∨ (heightSkip > height ∧
                ¬ (heightSkipPrev + 2 < heightSkip ∧ heightSkipPrev ≥ height)) then
              getAncestorLoop height fuel s heightSkip
            else (T.pprev pindexWalk).bind fun p => getAncestorLoop height fuel p (heightWalk - 1)
        | none => (T.pprev pindexWalk).bind fun p => getAncestorLoop height fuel p (heightWalk - 1)
      else some pindexWalk

/-- `CBlockIndex::GetAncestor`. -/
def getAncestor (b : ι) (height : ℕ) : Option ι :=
  if height > T.nHeight b then none
  else T.getAncestorLoop height (T.nHeight b) b (T.nHeight b)

/-- The loop arrives at the ancestor that walking along `pprev` arrives at. -/
theorem getAncestorLoop_eq (height : ℕ) : ∀ (fuel : ℕ) (b : ι), T.nHeight b ≤ fuel →
    height ≤ T.nHeight b →
    T.getAncestorLoop height fuel b (T.nHeight b) = T.forest.ancestor? height b := by
  intro fuel
  induction fuel with
  | zero =>
    intro b hfuel hle
    have hz : height = T.forest.height b := by
      show height = T.nHeight b
      omega
    rw [hz, Forest.ancestor?_self]
    rfl
  | succ fuel ih =>
    intro b hfuel hle
    by_cases hgt : T.nHeight b > height
    · -- one step along `pprev` keeps the ancestor that is looked for
      have hprev : ((T.pprev b).bind fun p => T.getAncestorLoop height fuel p (T.nHeight b - 1))
          = T.forest.ancestor? height b := by
        cases hp : T.pprev b with
        | none =>
          have := T.height_root b hp
          omega
        | some p =>
          have hh := T.height_child b p hp
          have hle' : T.forest.Le p b := Forest.Le.of_parent hp
          have hk : height ≤ T.forest.height p := by
            show height ≤ T.nHeight p
            omega
          rw [Option.bind_some, show T.nHeight b - 1 = T.nHeight p from by omega,
            ih p (by omega) (by omega), hle'.ancestor?_eq hk]
      rw [getAncestorLoop, if_pos hgt]
      cases hs : T.pskip b with
      | none => exact hprev
      | some s =>
        simp only
        split
        · have hup := T.skip b s hs
          have hle' : T.forest.Le s b := ⟨_, hup⟩
          have hlt := getSkipHeight_lt (h := T.nHeight b) (by omega)
          have hh : T.nHeight b = T.nHeight s + (T.nHeight b - getSkipHeight (T.nHeight b)) :=
            Forest.height_up (F := T.forest) hup
          have hk : height ≤ T.forest.height s := by
            show height ≤ T.nHeight s
            omega
          rw [show getSkipHeight (T.nHeight b) = T.nHeight s from by omega,
            ih s (by omega) (by omega), hle'.ancestor?_eq hk]
        · exact hprev
    · have hz : height = T.forest.height b := by
        show height = T.nHeight b
        omega
      rw [getAncestorLoop, if_neg hgt, hz, Forest.ancestor?_self]

/-- **`GetAncestor` is the walk along `pprev`.** -/
theorem getAncestor_eq (b : ι) (height : ℕ) :
    T.getAncestor b height = T.forest.ancestor? height b := by
  unfold getAncestor
  by_cases h : height > T.nHeight b
  · rw [if_pos h, Forest.ancestor?, if_neg]
    show ¬ height ≤ T.nHeight b
    omega
  · rw [if_neg h, T.getAncestorLoop_eq height _ b (Nat.le_refl _) (by omega)]

/-- How the callers use `GetAncestor`: to ask whether a block is on a path. -/
theorem getAncestor_eq_some_iff {a b : ι} :
    T.getAncestor b (T.nHeight a) = some a ↔ T.forest.Le a b := by
  rw [getAncestor_eq]
  exact Forest.ancestor?_height_iff

end BlockIndex

/-! ## Chains -/

/-- `CChain`. -/
structure CChain (ι : Type) where
  vChain : List (Option ι)
  deriving DecidableEq

namespace CChain

variable {ι : Type} [DecidableEq ι] (T : BlockIndex ι)

/-- `CChain::Tip`. -/
def tip (c : CChain ι) : Option ι := c.vChain.getLast?.join

/-- `CChain::Height`. -/
def height (c : CChain ι) : ℤ := (c.vChain.length : ℤ) - 1

/-- `CChain::Contains`. -/
def contains (c : CChain ι) (pindex : ι) : Bool :=
  c.vChain[T.nHeight pindex]?.join = some pindex

/-- `vChain.resize(n)`. -/
def resize (l : List (Option ι)) (n : ℕ) : List (Option ι) :=
  l.take n ++ List.replicate (n - l.length) none

/-- The loop of `SetTip`; the first argument bounds the rounds. -/
def setTipLoop : ℕ → ι → List (Option ι) → List (Option ι)
  | 0, _, vChain => vChain
  | fuel + 1, pindex, vChain =>
      if vChain[T.nHeight pindex]?.join ≠ some pindex then
        let vChain := vChain.set (T.nHeight pindex) (some pindex)
        match T.pprev pindex with
        | none => vChain
        | some p => setTipLoop fuel p vChain
      else vChain

/-- `CChain::SetTip` on a block. -/
def setTip (c : CChain ι) (pindex : ι) : CChain ι where
  vChain := setTipLoop T (T.nHeight pindex + 1) pindex (resize c.vChain (T.nHeight pindex + 1))

/-- The chain is the path from the root to `b`. -/
def IsPath (c : CChain ι) (b : ι) : Prop :=
  c.vChain = (List.range (T.nHeight b + 1)).map fun h => T.forest.ancestor? h b

/-- Up to height `n`, below every block there are its ancestors. -/
def Rooted (n : ℕ) (l : List (Option ι)) : Prop :=
  ∀ h ≤ n, ∀ x, l[h]? = some (some x) → ∀ k ≤ h, l[k]? = some (T.forest.ancestor? k x)

variable {T}

/-- The loop writes the ancestors of `b` and leaves what is higher alone. -/
theorem getElem?_setTipLoop : ∀ (fuel : ℕ) (b : ι) (l : List (Option ι)), T.nHeight b < fuel →
    T.nHeight b < l.length → Rooted T (T.nHeight b) l → ∀ k,
    (setTipLoop T fuel b l)[k]? =
      if k ≤ T.nHeight b then some (T.forest.ancestor? k b) else l[k]? := by
  intro fuel
  induction fuel with
  | zero =>
    intro b l hfuel
    omega
  | succ fuel ih =>
    intro b l hfuel hlen hroot k
    rw [setTipLoop]
    by_cases hin : l[T.nHeight b]?.join = some b
    · -- already in place: the invariant says the rest is, too
      rw [if_neg (not_not.mpr hin)]
      have hget : l[T.nHeight b]? = some (some b) := Option.join_eq_some_iff.mp hin
      by_cases hk : k ≤ T.nHeight b
      · rw [if_pos hk]
        exact hroot _ (Nat.le_refl _) b hget k hk
      · rw [if_neg hk]
    · rw [if_pos hin]
      have hself : T.forest.ancestor? (T.nHeight b) b = some b := Forest.ancestor?_self b
      cases hp : T.pprev b with
      | none =>
        have hz := T.height_root b hp
        simp only [List.getElem?_set, hlen, if_true]
        by_cases hk : k ≤ T.nHeight b
        · obtain rfl : k = T.nHeight b := by omega
          rw [if_pos rfl, if_pos hk, hself]
        · rw [if_neg (by omega), if_neg hk]
      | some p =>
        have hh := T.height_child b p hp
        have hle : T.forest.Le p b := Forest.Le.of_parent hp
        simp only
        rw [ih p _ (by omega) (by rw [List.length_set]; omega)]
        · by_cases hk : k ≤ T.nHeight p
          · rw [if_pos hk, if_pos (by omega), hle.ancestor?_eq hk]
          · rw [if_neg hk, List.getElem?_set]
            simp only [hlen, if_true]
            by_cases hkb : T.nHeight b = k
            · rw [if_pos hkb, if_pos (by omega), ← hkb, hself]
            · rw [if_neg hkb, if_neg (by omega)]
        · intro h hhp x hx j hj
          rw [List.getElem?_set_ne (by omega)] at hx ⊢
          exact hroot h (by omega) x hx j hj

omit [DecidableEq ι] in
theorem getElem?_resize (l : List (Option ι)) (n k : ℕ) :
    (resize l n)[k]? = if k < n then some (l[k]?.join) else none := by
  unfold resize
  by_cases hk : k < (l.take n).length
  · rw [List.getElem?_append_left hk]
    rw [List.length_take] at hk
    rw [if_pos (by omega), List.getElem?_take_of_lt (by omega),
      List.getElem?_eq_getElem (by omega)]
    rfl
  · rw [List.getElem?_append_right (by omega), List.getElem?_replicate]
    rw [List.length_take] at hk ⊢
    by_cases hn : k < n
    · rw [if_pos hn, if_pos (by omega), List.getElem?_eq_none (by omega)]
      rfl
    · rw [if_neg hn, if_neg (by omega)]

omit [DecidableEq ι] in
theorem IsPath.getElem? {c : CChain ι} {b : ι} (h : c.IsPath T b) (k : ℕ) :
    c.vChain[k]? = if k ≤ T.nHeight b then some (T.forest.ancestor? k b) else none := by
  rw [h, List.getElem?_map]
  by_cases hk : k ≤ T.nHeight b
  · rw [if_pos hk, List.getElem?_range (by omega)]
    rfl
  · rw [if_neg hk, List.getElem?_eq_none (by rw [List.length_range]; omega)]
    rfl

/-- The chain is empty, or the path to some block. -/
def Valid (T : BlockIndex ι) (c : CChain ι) : Prop := c.vChain = [] ∨ ∃ b, c.IsPath T b

/-- **`SetTip`** makes the chain the path to the new tip. -/
theorem setTip_isPath {c : CChain ι} (hc : c.Valid T) (b : ι) : (c.setTip T b).IsPath T b := by
  have hroot : Rooted T (T.nHeight b) (resize c.vChain (T.nHeight b + 1)) := by
    intro h hh x hx k hk
    rw [getElem?_resize, if_pos (by omega)] at hx
    rw [getElem?_resize, if_pos (by omega)]
    have hget : c.vChain[h]? = some (some x) := by
      rw [← Option.join_eq_some_iff]
      exact Option.some.inj hx
    rcases hc with hnil | ⟨t, ht⟩
    · rw [hnil] at hget
      simp at hget
    · rw [ht.getElem?] at hget ⊢
      by_cases hht : h ≤ T.nHeight t
      · rw [if_pos hht] at hget
        obtain ⟨hle, hheight⟩ := Forest.ancestor?_eq_some_iff.mp (Option.some.inj hget)
        have hkx : k ≤ T.forest.height x := by omega
        rw [if_pos (by omega), hle.ancestor?_eq hkx]
        rfl
      · rw [if_neg hht] at hget
        cases hget
  have hlen : (resize c.vChain (T.nHeight b + 1)).length = T.nHeight b + 1 := by
    rw [resize, List.length_append, List.length_take, List.length_replicate]
    omega
  rw [IsPath]
  apply List.ext_getElem?
  intro k
  rw [setTip, getElem?_setTipLoop _ b _ (by omega) (by omega) hroot, List.getElem?_map]
  by_cases hk : k ≤ T.nHeight b
  · rw [if_pos hk, List.getElem?_range (by omega)]
    rfl
  · rw [if_neg hk, List.getElem?_eq_none (by omega),
      List.getElem?_eq_none (by rw [List.length_range]; omega)]
    rfl

omit [DecidableEq ι] in
theorem IsPath.valid {c : CChain ι} {b : ι} (h : c.IsPath T b) : c.Valid T := .inr ⟨b, h⟩

omit [DecidableEq ι] in
theorem IsPath.tip_eq {c : CChain ι} {b : ι} (h : c.IsPath T b) : c.tip = some b := by
  have hlen : c.vChain.length = T.nHeight b + 1 := by
    rw [h, List.length_map, List.length_range]
  rw [tip, List.getLast?_eq_getElem?, hlen, Nat.add_sub_cancel, h.getElem?,
    if_pos (Nat.le_refl _)]
  show T.forest.ancestor? (T.forest.height b) b = some b
  exact Forest.ancestor?_self b

/-- On a path, `Contains` asks for the ancestors of the tip. -/
theorem IsPath.contains_iff {c : CChain ι} {b x : ι} (h : c.IsPath T b) :
    c.contains T x = true ↔ T.forest.Le x b := by
  rw [contains, decide_eq_true_iff, h.getElem?]
  constructor
  · intro hx
    by_cases hk : T.nHeight x ≤ T.nHeight b
    · rw [if_pos hk] at hx
      exact (Forest.ancestor?_eq_some_iff.mp hx).1
    · rw [if_neg hk] at hx
      cases hx
  · intro hx
    have hle : T.nHeight x ≤ T.nHeight b := hx.height_le
    rw [if_pos hle]
    exact Forest.ancestor?_height_iff.mpr hx

omit [DecidableEq ι] in
theorem IsPath.height_ne {c : CChain ι} {b : ι} (h : c.IsPath T b) : c.height ≠ -1 := by
  rw [height, h, List.length_map, List.length_range]
  omega

omit [DecidableEq ι] in
theorem IsPath.ne_nil {c : CChain ι} {b : ι} (h : c.IsPath T b) : c.vChain ≠ [] := by
  intro hnil
  have hne := h.height_ne
  simp [height, hnil] at hne

end CChain
