/-
# Block locators

`CChain::GetLocator` (`libs/server/chain.cpp`) and `FindForkInGlobalIndex`
(`libs/server/main.cpp`).  A locator goes down from a block to genesis, in steps that double after
the eleventh entry.  No step is longer than the way that was gone before and two (`Steps`), so the
first entry that another chain has is at most twice as far away as the fork (`getLocator_spec`).
-/
import Hub.ChainForks
import Hub.SkipList
import Mathlib

namespace CChain

variable {ι : Type} [DecidableEq ι] (T : BlockIndex ι) (hash : ι → Uint256)

/-- `CChain::Genesis`. -/
def genesis (c : CChain ι) : Option ι := c.vChain.head?.join

/-- The loop of `GetLocator`; the first argument bounds the rounds. -/
def getLocatorLoop (c : CChain ι) : ℕ → Option ι → ℤ → List Uint256 → Option (List Uint256)
  | _, none, _, vHave => some vHave
  | 0, some _, _, _ => none
  | fuel + 1, some pindex, nStep, vHave =>
      let vHave := vHave ++ [hash pindex]
      if T.nHeight pindex = 0 then some vHave
      else
        let nHeight := max (T.nHeight pindex - nStep) 0
        let pindex := if c.contains T pindex then c.at? nHeight else getAncestor? T pindex nHeight
        getLocatorLoop c fuel pindex (if vHave.length > 10 then nStep * 2 else nStep) vHave

/-- `CChain::GetLocator`; a null pointer stands for the tip. -/
def getLocator (c : CChain ι) (pindex : Option ι) : Option (List Uint256) :=
  let pindex := pindex.or c.tip
  getLocatorLoop T hash c (pindex.elim 0 fun b => T.nHeight b + 1) pindex 1 []

/-- `FindForkInGlobalIndex`; `get` is `Blocks::Index::get`. -/
def findForkInGlobalIndex (get : Uint256 → Option ι) (chain : CChain ι) :
    List Uint256 → Option ι
  | [] => chain.genesis
  | hash :: vHave =>
      match get hash with
      | none => findForkInGlobalIndex get chain vHave
      | some pindex =>
          if chain.contains T pindex then some pindex
          else findForkInGlobalIndex get chain vHave

/-! ## The steps -/

/-- The blocks of a locator for `p`: down to genesis, and each step is at most as long as the way so
far and two. -/
def Steps (T : BlockIndex ι) (p : ι) : List ι → Prop
  | [] => False
  | [x] => T.forest.Le x p ∧ T.nHeight x = 0
  | x :: y :: l => T.forest.Le x p ∧ T.nHeight y < T.nHeight x ∧
      T.nHeight x - T.nHeight y ≤ T.nHeight p - T.nHeight x + 2 ∧ Steps T p (y :: l)

variable {T hash} {c : CChain ι} {p x t : ι}

/-- The chain and the skip list lead to the same block. -/
theorem next_spec (hc : c.Valid T) {nHeight : ℤ} (h0 : 0 ≤ nHeight) (hlt : nHeight ≤ T.nHeight x) :
    ∃ y, (if c.contains T x then c.at? nHeight else getAncestor? T x nHeight) = some y ∧
      T.forest.Le y x ∧ (T.nHeight y : ℤ) = nHeight := by
  have hle : nHeight.toNat ≤ T.forest.height x := by
    change nHeight.toNat ≤ T.nHeight x
    omega
  obtain ⟨y, hy⟩ := Forest.ancestor?_isSome hle
  obtain ⟨hyx, hheight⟩ := Forest.ancestor?_eq_some_iff.mp hy
  have hheight' : T.nHeight y = nHeight.toNat := hheight
  refine ⟨y, ?_, hyx, by omega⟩
  split
  · next hcontains =>
    rcases hc with hnil | ⟨tip, htip⟩
    · rw [contains, hnil] at hcontains
      simp at hcontains
    · have hx := htip.contains_iff.mp hcontains
      exact htip.at?_eq_some_iff.mpr ⟨hyx.trans hx, by omega⟩
  · rw [getAncestor?, if_neg (by omega), T.getAncestor_eq, hy]

variable (hash) in
/-- The loop goes down to genesis in such steps. -/
theorem getLocatorLoop_spec (hc : c.Valid T) : ∀ (fuel : ℕ) (x : ι) (nStep : ℤ)
    (vHave : List Uint256), T.nHeight x < fuel → T.forest.Le x p → 1 ≤ nStep →
    (T.nHeight x ≠ 0 → nStep ≤ (T.nHeight p : ℤ) - T.nHeight x + 2) →
    ∃ bs, getLocatorLoop T hash c fuel (some x) nStep vHave =
      some (vHave ++ (x :: bs).map hash) ∧ Steps T p (x :: bs) := by
  intro fuel
  induction fuel with
  | zero =>
    intro x nStep vHave hfuel
    omega
  | succ fuel ih =>
    intro x nStep vHave hfuel hle hpos hstep
    rw [getLocatorLoop]
    by_cases hzero : T.nHeight x = 0
    · rw [if_pos hzero]
      exact ⟨[], rfl, hle, hzero⟩
    · have hstep' := hstep hzero
      rw [if_neg hzero]
      have hdown : max ((T.nHeight x : ℤ) - nStep) 0 ≤ T.nHeight x := by omega
      obtain ⟨y, hy, hyx, hheight⟩ := next_spec hc (le_max_right _ _) hdown
      simp only [hy]
      have hxp : T.nHeight x ≤ T.nHeight p := hle.height_le
      obtain ⟨bs, hrun, hsteps⟩ := ih y
        (if (vHave ++ [hash x]).length > 10 then nStep * 2 else nStep) (vHave ++ [hash x])
        (by omega) (hyx.trans hle) (by split <;> omega) (by split <;> omega)
      refine ⟨y :: bs, ?_, hle, by omega, by omega, hsteps⟩
      rw [hrun, List.append_assoc]
      rfl

/-! ## What follows from the steps -/

omit [DecidableEq ι] in
theorem Steps.le : ∀ {bs : List ι}, Steps T p bs → ∀ b ∈ bs, T.forest.Le b p := by
  intro bs
  induction bs with
  | nil =>
    intro h
    exact h.elim
  | cons x l ih =>
    intro h b hb
    cases l with
    | nil =>
      rw [List.mem_singleton.mp hb]
      exact h.1
    | cons y l =>
      rcases List.mem_cons.mp hb with rfl | hb
      · exact h.1
      · exact ih h.2.2.2 b hb

omit [DecidableEq ι] in
theorem Steps.pairwise : ∀ {bs : List ι}, Steps T p bs →
    bs.Pairwise fun x y => T.nHeight y < T.nHeight x := by
  intro bs
  induction bs with
  | nil =>
    intro h
    exact h.elim
  | cons x l ih =>
    intro h
    cases l with
    | nil => exact List.pairwise_singleton _ x
    | cons y l =>
      obtain ⟨-, hlt, -, hrest⟩ := h
      have hpairs := ih hrest
      refine List.pairwise_cons.mpr ⟨fun b hb => ?_, hpairs⟩
      rcases List.mem_cons.mp hb with rfl | hb
      · exact hlt
      · exact ((List.pairwise_cons.mp hpairs).1 b hb).trans hlt

omit [DecidableEq ι] in
theorem Steps.getLast? : ∀ {bs : List ι}, Steps T p bs →
    ∃ g, bs.getLast? = some g ∧ T.nHeight g = 0 := by
  intro bs
  induction bs with
  | nil =>
    intro h
    exact h.elim
  | cons x l ih =>
    intro h
    cases l with
    | nil => exact ⟨x, rfl, h.2⟩
    | cons y l =>
      obtain ⟨g, hg, hzero⟩ := ih h.2.2.2
      exact ⟨g, by rw [List.getLast?_cons_cons, hg], hzero⟩

omit [DecidableEq ι] in
/-- Two blocks with a common ancestor have a highest one. -/
theorem exists_isFork {g : ι} (hgp : T.forest.Le g p) (hgt : T.forest.Le g t) :
    ∃ f, IsFork T p t f := by
  classical
  let common : ℕ → Prop := fun k => ∃ a, T.forest.Le a p ∧ T.forest.Le a t ∧ T.nHeight a = k
  have hg : common (T.nHeight g) := ⟨g, hgp, hgt, rfl⟩
  obtain ⟨f, hfp, hft, hf⟩ : common (Nat.findGreatest common (T.nHeight p)) :=
    Nat.findGreatest_spec hgp.height_le hg
  refine ⟨f, hfp, hft, fun a hap hat => ?_⟩
  rw [hf]
  exact Nat.le_findGreatest hap.height_le ⟨a, hap, hat, rfl⟩

/-- The first block of the other chain is not too far away, when the list starts not too far
away. -/
theorem Steps.findFork {D : CChain ι} (hD : D.IsPath T t) {get : Uint256 → Option ι} {fork : ι}
    (hfork : IsFork T p t fork) : ∀ {bs : List ι}, Steps T p bs →
    (∀ b ∈ bs, get (hash b) = some b) →
    (∀ x ∈ bs.head?, T.nHeight p - T.nHeight x ≤ 2 * (T.nHeight p - T.nHeight fork)) →
    ∃ f, findForkInGlobalIndex T get D (bs.map hash) = some f ∧ T.forest.Le f p ∧
      T.forest.Le f t ∧ T.nHeight p - T.nHeight f ≤ 2 * (T.nHeight p - T.nHeight fork) := by
  obtain ⟨hfp, hft, -⟩ := hfork
  have hforkp : T.nHeight fork ≤ T.nHeight p := hfp.height_le
  intro bs
  induction bs with
  | nil =>
    intro h
    exact h.elim
  | cons x l ih =>
    intro h hget hnear
    have hxp : T.forest.Le x p := h.le x List.mem_cons_self
    have hxp' : T.nHeight x ≤ T.nHeight p := hxp.height_le
    rw [List.map_cons, findForkInGlobalIndex, hget x List.mem_cons_self]
    by_cases hxt : T.forest.Le x t
    · -- the other chain has the block
      refine ⟨x, if_pos (hD.contains_iff.mpr hxt), hxp, hxt, hnear x rfl⟩
    · have hnot : ¬ D.contains T x = true := fun hc => hxt (hD.contains_iff.mp hc)
      have habove : T.nHeight fork < T.nHeight x := by
        by_contra hle
        exact hxt ((hxp.total hfp (Nat.le_of_not_lt hle)).trans hft)
      cases l with
      | nil =>
        have hzero := h.2
        omega
      | cons y l =>
        obtain ⟨-, hlt, hstep, hrest⟩ := h
        have hyp' : T.nHeight y ≤ T.nHeight p := (hrest.le y List.mem_cons_self).height_le
        obtain ⟨f, hrun, hf⟩ := ih hrest (fun b hb => hget b (List.mem_cons_of_mem x hb)) (by
          intro z hz
          obtain rfl := Option.some.inj hz
          omega)
        exact ⟨f, (if_neg hnot).trans hrun, hf⟩

/-- **Block locators.**  A locator goes from the block to genesis, through ancestors that come lower
and lower; and what `FindForkInGlobalIndex` finds in another chain, when all the blocks are known,
is a common ancestor at most twice as far away as the fork. -/
theorem getLocator_spec (T : BlockIndex ι) (hash : ι → Uint256) {c : CChain ι} (hc : c.Valid T)
    (p : ι) :
    ∃ bs : List ι, c.getLocator T hash (some p) = some (bs.map hash) ∧ bs.head? = some p ∧
      (∀ b ∈ bs, T.forest.Le b p) ∧ bs.Pairwise (fun x y => T.nHeight y < T.nHeight x) ∧
      (∃ g, bs.getLast? = some g ∧ T.nHeight g = 0) ∧
      ∀ (D : CChain ι) (t : ι) (get : Uint256 → Option ι), D.IsPath T t →
        (∃ g, T.forest.Le g p ∧ T.forest.Le g t) → (∀ b ∈ bs, get (hash b) = some b) →
        ∃ fork f, IsFork T p t fork ∧ findForkInGlobalIndex T get D (bs.map hash) = some f ∧
          T.forest.Le f p ∧ T.forest.Le f t ∧
          T.nHeight p - T.nHeight f ≤ 2 * (T.nHeight p - T.nHeight fork) := by
  obtain ⟨bs, hrun, hsteps⟩ := getLocatorLoop_spec hash hc (T.nHeight p + 1) p 1 []
    (Nat.lt_succ_self _) (Forest.Le.refl p) le_rfl (fun _ => by omega)
  refine ⟨p :: bs, hrun, rfl, hsteps.le, hsteps.pairwise, hsteps.getLast?, ?_⟩
  rintro D t get hD ⟨g, hgp, hgt⟩ hget
  obtain ⟨fork, hfork⟩ := exists_isFork hgp hgt
  obtain ⟨f, hf⟩ := hsteps.findFork hD hfork hget (by
    intro x hx
    obtain rfl := Option.some.inj hx
    rw [Nat.sub_self]
    exact Nat.zero_le _)
  exact ⟨fork, f, hfork, hf⟩

local instance neZero_forkedTree : NeZero 40 := ⟨by decide⟩

/-- Twenty-five blocks in a row, and fifteen more behind the one at height five. -/
def forkedTree : BlockIndex (Fin 40) :=
  BlockIndex.unlinked
    { parent := fun b => if b = 0 then none else if b = 25 then some 5 else some (b - 1)
      height := fun b => if b < 25 then b else b - 19
      height_root := by decide
      height_child := by decide } fun _ => 0

def blockHash (b : Fin 40) : BitVec 256 := BitVec.ofNat 256 b.val

def ofHash (hash : BitVec 256) : Option (Fin 40) := some (Fin.ofNat 40 hash.toNat)

/-- The chain to the end of the row. -/
def rowChain : CChain (Fin 40) := (⟨[]⟩ : CChain (Fin 40)).setTip forkedTree 24

/-- What the locator for the tip of the branch shows. -/
def branchBlocks : List (Fin 40) := [39, 38, 37, 36, 35, 34, 33, 32, 31, 30, 29, 28, 26, 3, 0]

/-- The locator for the tip of the branch goes down in larger and larger steps: it jumps over the
fork, at height five, to height three. -/
theorem getLocator_spec_forkedTree : ∃ fork, IsFork forkedTree 39 24 fork ∧
    rowChain.getLocator forkedTree blockHash (some 39) = some (branchBlocks.map blockHash) ∧
    findForkInGlobalIndex forkedTree ofHash rowChain (branchBlocks.map blockHash) = some 3 ∧
    forkedTree.nHeight 39 - forkedTree.nHeight 3
      ≤ 2 * (forkedTree.nHeight 39 - forkedTree.nHeight fork) := by
  have hpath : rowChain.IsPath forkedTree 24 := setTip_isPath (.inl rfl) 24
  have hlocator : rowChain.getLocator forkedTree blockHash (some 39)
      = some (branchBlocks.map blockHash) := by decide +kernel
  have hthree : findForkInGlobalIndex forkedTree ofHash rowChain (branchBlocks.map blockHash)
      = some 3 := by decide +kernel
  have hofHash : ∀ b, ofHash (blockHash b) = some b := by decide +kernel
  obtain ⟨bs, hrun, -, -, -, -, hforks⟩ := getLocator_spec forkedTree blockHash hpath.valid 39
  obtain ⟨fork, f, hfork, hfind, -, -, hnear⟩ :=
    hforks rowChain 24 ofHash hpath ⟨0, ⟨20, rfl⟩, ⟨24, rfl⟩⟩ fun b _ => hofHash b
  rw [← Option.some.inj (hlocator.symm.trans hrun), hthree] at hfind
  obtain rfl := Option.some.inj hfind
  exact ⟨fork, hfork, hlocator, hthree, hnear⟩

end CChain
