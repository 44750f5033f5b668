/-
# Chains over runs, and forks

`CChain::operator[]`, `SetTip` also on a null pointer, and `FindFork` (`libs/server/chain.h`,
`libs/server/chain.cpp`).  `SetTip` stops at the first slot that already has the block, which is
right because the slots below it are the ancestors of that block (`CChain.setTip_isPath`).  A chain
that is empty or the path to its tip stays so, whatever the tips of a run are.

On the path to the tip `t` the slots are the ancestors of `t`, and `FindFork` walks down from a
block to the highest one of them (`findFork_spec`).
-/
import Hub.Chain
import Mathlib

namespace CChain

variable {ι : Type} [DecidableEq ι] (T : BlockIndex ι)

/-- `CChain::operator[]`. -/
def at? (c : CChain ι) (nHeight : ℤ) : Option ι :=
  if nHeight < 0 ∨ (c.vChain.length : ℤ) ≤ nHeight then none
  else c.vChain[nHeight.toNat]?.join

/-- `CChain::SetTip`; a null pointer clears the chain. -/
def setTip? (c : CChain ι) : Option ι → CChain ι
  | none => ⟨[]⟩
  | some pindex => c.setTip T pindex

/-- `GetAncestor` on an `int`. -/
def getAncestor? (pindex : ι) (height : ℤ) : Option ι :=
  if height < 0 then none else T.getAncestor pindex height.toNat

/-- The loop of `FindFork`; the first argument bounds the rounds, and the outer `none` says that
they were too few. -/
def findForkLoop (c : CChain ι) : ℕ → Option ι → Option (Option ι)
  | _, none => some none
  | 0, some _ => none
  | fuel + 1, some pindex =>
      if c.contains T pindex then some (some pindex)
      else findForkLoop c fuel (T.pprev pindex)

/-- `CChain::FindFork`, on a block. -/
def findFork (c : CChain ι) (pindex : ι) : Option (Option ι) :=
  findForkLoop T c (T.nHeight pindex + 1)
    (if c.height < T.nHeight pindex then getAncestor? T pindex c.height else some pindex)

variable {T} {c : CChain ι} {b t : ι}

/-! ## Runs -/

theorem setTip?_valid (hc : c.Valid T) (pindex : Option ι) : (c.setTip? T pindex).Valid T := by
  cases pindex with
  | none => exact .inl rfl
  | some b => exact (setTip_isPath hc b).valid

/-- Whatever the tips are, the chain is empty or a path. -/
theorem foldl_setTip?_valid : ∀ {tips : List (Option ι)} {c : CChain ι}, c.Valid T →
    (tips.foldl (setTip? T) c).Valid T := by
  intro tips
  induction tips with
  | nil =>
    intro c hc
    exact hc
  | cons pindex tips ih =>
    intro c hc
    exact ih (setTip?_valid hc pindex)

/-! ## The path to the tip -/

omit [DecidableEq ι] in
theorem IsPath.height_eq (h : c.IsPath T t) : c.height = T.nHeight t := by
  rw [height, h, List.length_map, List.length_range]
  omega

omit [DecidableEq ι] in
/-- The slots are the ancestors of the tip. -/
theorem IsPath.at?_eq_some_iff (h : c.IsPath T t) {i : ℤ} {a : ι} :
    c.at? i = some a ↔ T.forest.Le a t ∧ (T.nHeight a : ℤ) = i := by
  have hlen : (c.vChain.length : ℤ) = T.nHeight t + 1 := by
    have hheight := h.height_eq
    rw [height] at hheight
    omega
  unfold at?
  rw [hlen, h.getElem?]
  constructor
  · intro ha
    split at ha
    · cases ha
    · rw [if_pos (by omega), Option.join_some] at ha
      obtain ⟨hle, hheight⟩ := Forest.ancestor?_eq_some_iff.mp ha
      have hnat : T.nHeight a = i.toNat := hheight
      exact ⟨hle, by omega⟩
  · rintro ⟨hle, rfl⟩
    have hheight : T.nHeight a ≤ T.nHeight t := hle.height_le
    rw [if_neg (by omega), Int.toNat_natCast, if_pos hheight, Option.join_some]
    exact Forest.ancestor?_height_iff.mpr hle

/-! ## Forks -/

/-- The highest block that is `b` or an ancestor of it, and `t` or an ancestor of it. -/
def IsFork (T : BlockIndex ι) (b t f : ι) : Prop :=
  T.forest.Le f b ∧ T.forest.Le f t ∧
    ∀ a, T.forest.Le a b → T.forest.Le a t → T.nHeight a ≤ T.nHeight f

/-- The loop finds the highest ancestor of the block that is in the chain. -/
theorem IsPath.findForkLoop_spec (h : c.IsPath T t) : ∀ (fuel : ℕ) (b : ι), T.nHeight b < fuel →
    ∃ f, findForkLoop T c fuel (some b) = some f ∧ ∀ a, f = some a ↔ IsFork T b t a := by
  intro fuel
  induction fuel with
  | zero =>
    intro b hfuel
    omega
  | succ fuel ih =>
    intro b hfuel
    rw [findForkLoop]
    by_cases hin : c.contains T b = true
    · rw [if_pos hin]
      have hb := h.contains_iff.mp hin
      refine ⟨some b, rfl, fun a => ⟨?_, ?_⟩⟩
      · intro ha
        obtain rfl := Option.some.inj ha
        exact ⟨Forest.Le.refl b, hb, fun x hx _ => hx.height_le⟩
      · rintro ⟨hab, -, hmax⟩
        rw [hab.eq_of_height (hmax b (Forest.Le.refl b) hb)]
    · rw [if_neg hin]
      have hb : ¬ T.forest.Le b t := fun hle => hin (h.contains_iff.mpr hle)
      cases hp : T.pprev b with
      | none =>
        refine ⟨none, by rw [findForkLoop], fun a => ⟨fun ha => (by cases ha), ?_⟩⟩
        rintro ⟨hab, hat, -⟩
        rw [Forest.eq_of_le_root hp hab] at hat
        exact absurd hat hb
      | some p =>
        have hheight := T.height_child b p hp
        obtain ⟨f, hf, hfork⟩ := ih p (by omega)
        refine ⟨f, hf, fun a => ?_⟩
        -- what is below `b` and in the chain is below the parent
        have hdown : ∀ x, T.forest.Le x b → T.forest.Le x t → T.forest.Le x p := by
          intro x hxb hxt
          rcases (Forest.le_iff_of_parent hp).mp hxb with rfl | hxp
          · exact absurd hxt hb
          · exact hxp
        have hup : ∀ x, T.forest.Le x p → T.forest.Le x b := fun x hx =>
          hx.trans (Forest.Le.of_parent hp)
        rw [hfork]
        constructor
        · rintro ⟨hap, hat, hmax⟩
          exact ⟨hup a hap, hat, fun x hxb hxt => hmax x (hdown x hxb hxt) hxt⟩
        · rintro ⟨hab, hat, hmax⟩
          exact ⟨hdown a hab hat, hat, fun x hxp hxt => hmax x (hup x hxp) hxt⟩

/-- **`FindFork`** finds the highest common ancestor of a block and the tip, if there is one. -/
theorem IsPath.findFork_spec (h : c.IsPath T t) (b : ι) :
    ∃ f, c.findFork T b = some f ∧ ∀ a, f = some a ↔ IsFork T b t a := by
  unfold findFork
  rw [h.height_eq]
  by_cases hhigh : T.nHeight t < T.nHeight b
  · rw [if_pos (by omega), getAncestor?, if_neg (by omega), Int.toNat_natCast,
      T.getAncestor_eq]
    -- the walk starts at the height of the tip
    obtain ⟨b', hb'⟩ := Forest.up_isSome (F := T.forest)
      (show T.nHeight b - T.nHeight t ≤ T.forest.height b from Nat.sub_le _ _)
    have hanc : T.forest.ancestor? (T.nHeight t) b = some b' := by
      rw [Forest.ancestor?, if_pos (show T.nHeight t ≤ T.forest.height b from hhigh.le)]
      exact hb'
    obtain ⟨hle, hheight⟩ := Forest.ancestor?_eq_some_iff.mp hanc
    have hheight' : T.nHeight b' = T.nHeight t := hheight
    obtain ⟨f, hf, hfork⟩ := h.findForkLoop_spec (T.nHeight b + 1) b' (by omega)
    rw [hanc]
    refine ⟨f, hf, fun a => ?_⟩
    have hdown : ∀ x, T.forest.Le x b → T.forest.Le x t → T.forest.Le x b' := by
      intro x hxb hxt
      apply hxb.total hle
      rw [hheight]
      exact hxt.height_le
    rw [hfork]
    constructor
    · rintro ⟨hab, hat, hmax⟩
      exact ⟨hab.trans hle, hat, fun x hxb hxt => hmax x (hdown x hxb hxt) hxt⟩
    · rintro ⟨hab, hat, hmax⟩
      exact ⟨hdown a hab hat, hat, fun x hxb hxt => hmax x (hxb.trans hle) hxt⟩
  · rw [if_neg (by omega)]
    exact h.findForkLoop_spec (T.nHeight b + 1) b (Nat.lt_succ_self _)

/-- **A run of `SetTip`.**  After a call with a block `t`, the slots are the ancestors of `t`,
`Contains` holds of the ancestors of `t`, and `FindFork` gives the highest common ancestor
with `t`. -/
theorem setTip_run (T : BlockIndex ι) (tips : List (Option ι)) (t : ι) :
    let c := (tips ++ [some t]).foldl (setTip? T) ⟨[]⟩
    c.height = T.nHeight t ∧
    (∀ i a, c.at? i = some a ↔ T.forest.Le a t ∧ (T.nHeight a : ℤ) = i) ∧
    (∀ b, c.contains T b = true ↔ T.forest.Le b t) ∧
    ∀ b, ∃ f, c.findFork T b = some f ∧ ∀ a, f = some a ↔ IsFork T b t a := by
  have hpath : ((tips ++ [some t]).foldl (setTip? T) ⟨[]⟩).IsPath T t := by
    rw [List.foldl_append]
    exact setTip_isPath (foldl_setTip?_valid (.inl rfl)) t
  exact ⟨hpath.height_eq, fun i a => hpath.at?_eq_some_iff, fun b => hpath.contains_iff,
    hpath.findFork_spec⟩

end CChain
