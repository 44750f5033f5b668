/-
# Reconsidering a block

`Blocks::Index::reconsiderBlock` (`libs/server/BlocksDB.cpp`) takes the failure flags away from a
block, from its descendants and from its ancestors, and `handleFailedBlock`
(`libs/server/validation/BlockValidation.cpp`) sets them.  A block descends from a failed one if it
has `BLOCK_FAILED_CHILD`, and that is what `Justified` says.

What branches off below the block is in neither of the two loops.  So the flags stay justified only
as long as such a branch has a failed block of its own (`reconsiderBlock_justified_iff`).
-/
import Hub.BlockStatus
import Hub.SkipList

namespace Blocks

/-! ## The code -/

/-- `Blocks::Index`, the blocks of `indexMap` in its order. -/
structure Index (ι : Type) where
  indexMap : List ι
  nStatus : ι → UInt32
  setDirtyBlockIndex : List ι

namespace Index

variable {ι : Type} [DecidableEq ι] (T : BlockIndex ι)

/-- A new `nStatus`, and `MarkIndexUnsaved`. -/
def setStatus (s : Index ι) (pindex : ι) (nStatus : UInt32) : Index ι :=
  { s with
    nStatus := Function.update s.nStatus pindex nStatus
    setDirtyBlockIndex := s.setDirtyBlockIndex.insert pindex }

/-- The body of the first loop of `reconsiderBlock`. -/
def reconsiderEntry (pindex : ι) (s : Index ι) (entry : ι) : Index ι :=
  if !BlockStatus.isValid (s.nStatus entry) BlockStatus.validTransactions ∧
      T.getAncestorAt entry (T.nHeight pindex) = some pindex then
    s.setStatus entry (BlockStatus.clear (s.nStatus entry))
  else s

/-- The second loop of `reconsiderBlock`; the first argument bounds the rounds. -/
def reconsiderAncestors : ℕ → Option ι → Index ι → Option (Index ι)
  | _, none, s => some s
  | 0, some _, _ => none
  | fuel + 1, some pindex, s =>
      reconsiderAncestors fuel (T.pprev pindex)
        (if BlockStatus.has (s.nStatus pindex) BlockStatus.failedMask then
          s.setStatus pindex (BlockStatus.clear (s.nStatus pindex))
        else s)

/-- `reconsiderBlock`. -/
def reconsiderBlock (s : Index ι) (pindex : ι) : Option (Index ι) :=
  reconsiderAncestors T (T.nHeight pindex + 1) (some pindex)
    (s.indexMap.foldl (reconsiderEntry T pindex) s)

/-- The inner loop of `handleFailedBlock`, from a tip down to the block; `none` is a null pointer. -/
def failChildren (index : ι) : ℕ → Option ι → Index ι → Option (Index ι)
  | fuel, some tip, s =>
      if tip = index then some s
      else
        match fuel with
        | 0 => none
        | fuel + 1 =>
            failChildren index fuel (T.pprev tip)
              (s.setStatus tip (s.nStatus tip ||| BlockStatus.failedChild))
  | _, none, _ => none

/-- `nStatus |= BLOCK_FAILED_VALID`. -/
def setFailedValid (s : Index ι) (index : ι) : Index ι :=
  { s with
    nStatus :=
      Function.update s.nStatus index (s.nStatus index ||| BlockStatus.failedValid) }

/-- What `handleFailedBlock` does to the flags. -/
def failBlock (s : Index ι) (headerChainTips : List ι) (index : ι) : Option (Index ι) :=
  headerChainTips.foldlM (fun s tip =>
      if T.getAncestorAt tip (T.nHeight index) = some index then
        failChildren T index (T.nHeight tip) (some tip) s
      else some s)
    (s.setFailedValid index)

/-! ## The flags -/

def Failed (s : Index ι) (x : ι) : Prop :=
  BlockStatus.has (s.nStatus x) BlockStatus.failedMask = true

def FailedValid (s : Index ι) (x : ι) : Prop :=
  BlockStatus.has (s.nStatus x) BlockStatus.failedValid = true

def FailedChild (s : Index ι) (x : ι) : Prop :=
  BlockStatus.has (s.nStatus x) BlockStatus.failedChild = true

instance (s : Index ι) (x : ι) : Decidable (s.FailedValid x) := inferInstanceAs (Decidable (_ = true))

instance (s : Index ι) (x : ι) : Decidable (s.FailedChild x) := inferInstanceAs (Decidable (_ = true))

/-- `BLOCK_FAILED_CHILD` is for blocks that descend from a failed one. -/
def Justified (s : Index ι) : Prop :=
  ∀ c ∈ s.indexMap, s.FailedChild c → ∃ a, T.forest.Le a c ∧ a ≠ c ∧ s.FailedValid a

variable {T} {s s' : Index ι} {a b c x : ι}

omit [DecidableEq ι] in
/-- A block without a failure flag. -/
theorem not_failed_iff : ¬ s.Failed x ↔ BlockStatus.has (s.nStatus x) BlockStatus.failedMask = false := by
  rw [Failed, Bool.not_eq_true]

omit [DecidableEq ι] in
theorem FailedValid.failed (h : s.FailedValid x) : s.Failed x := by
  by_contra hnone
  have hvalid := BlockStatus.has_eq_false_of_failedMask (not_failed_iff.mp hnone)
    (show BlockStatus.failedMask &&& BlockStatus.failedValid = BlockStatus.failedValid by decide)
  rw [FailedValid, hvalid] at h
  cases h

omit [DecidableEq ι] in
theorem FailedChild.failed (h : s.FailedChild x) : s.Failed x := by
  by_contra hnone
  have hchild := BlockStatus.has_eq_false_of_failedMask (not_failed_iff.mp hnone)
    (show BlockStatus.failedMask &&& BlockStatus.failedChild = BlockStatus.failedChild by decide)
  rw [FailedChild, hchild] at h
  cases h

/-- The blocks of `P` lose their failure flags, and the others stay as they are. -/
structure Cleared (P : ι → Prop) (s s' : Index ι) : Prop where
  indexMap : s'.indexMap = s.indexMap
  off : ∀ x, ¬ P x → s'.nStatus x = s.nStatus x
  on : ∀ x, P x → ¬ s'.Failed x

omit [DecidableEq ι] in
theorem Cleared.refl (s : Index ι) : Cleared (fun _ => False) s s :=
  ⟨rfl, fun _ _ => rfl, fun _ h => h.elim⟩

omit [DecidableEq ι] in
theorem Cleared.trans {P Q : ι → Prop} {s₁ : Index ι} (h : Cleared P s s₁) (h' : Cleared Q s₁ s') :
    Cleared (fun x => P x ∨ Q x) s s' where
  indexMap := h'.indexMap.trans h.indexMap
  off := by
    intro x hx
    rw [not_or] at hx
    rw [h'.off x hx.2, h.off x hx.1]
  on := by
    intro x hx
    by_cases hq : Q x
    · exact h'.on x hq
    · have hp := h.on x (hx.resolve_right hq)
      rwa [Failed, h'.off x hq]

omit [DecidableEq ι] in
theorem Cleared.congr {P Q : ι → Prop} (h : Cleared P s s') (hpq : ∀ x, P x ↔ Q x) :
    Cleared Q s s' := by
  have hsame : P = Q := by
    funext x
    exact propext (hpq x)
  rwa [← hsame]

/-! ## Reconsidering -/

/-- One block is cleared. -/
theorem cleared_setStatus (s : Index ι) (x : ι) :
    Cleared (fun y => y = x) s (s.setStatus x (BlockStatus.clear (s.nStatus x))) where
  indexMap := rfl
  off := fun y hy => Function.update_of_ne hy _ _
  on := by
    rintro y rfl
    rw [not_failed_iff]
    show BlockStatus.has (Function.update s.nStatus y _ y) _ = false
    rw [Function.update_self]
    exact BlockStatus.has_clear

theorem cleared_reconsiderEntry (b : ι) (s : Index ι) (entry : ι) :
    Cleared (fun x => x = entry ∧ T.forest.Le b entry) s (reconsiderEntry T b s entry) := by
  have hancestor : T.getAncestorAt entry (T.nHeight b) = some b ↔ T.forest.Le b entry := by
    rw [BlockIndex.getAncestorAt_eq, if_pos (by omega), Int.toNat_natCast]
    exact Forest.ancestor?_height_iff
  rw [reconsiderEntry]
  by_cases hle : T.forest.Le b entry
  · cases hvalid : BlockStatus.isValid (s.nStatus entry) BlockStatus.validTransactions with
    | false =>
      rw [if_pos ⟨rfl, hancestor.mpr hle⟩]
      exact (cleared_setStatus s entry).congr fun x => (and_iff_left hle).symm
    | true =>
      rw [if_neg (fun h => by cases h.1)]
      refine ⟨rfl, fun _ _ => rfl, ?_⟩
      rintro x ⟨rfl, -⟩
      rw [not_failed_iff]
      exact BlockStatus.has_failedMask_of_isValid hvalid
  · rw [if_neg (fun h => hle (hancestor.mp h.2))]
    exact (Cleared.refl s).congr fun x => ⟨False.elim, fun h => hle h.2⟩

/-- The loop over the index. -/
theorem cleared_foldl (b : ι) : ∀ (l : List ι) (s : Index ι),
    Cleared (fun x => x ∈ l ∧ T.forest.Le b x) s (l.foldl (reconsiderEntry T b) s) := by
  intro l
  induction l with
  | nil =>
    intro s
    exact (Cleared.refl s).congr fun x => ⟨False.elim, fun h => by cases h.1⟩
  | cons entry l ih =>
    intro s
    refine ((cleared_reconsiderEntry b s entry).trans (ih _)).congr fun x => ?_
    rw [List.mem_cons, or_and_right]
    constructor
    · rintro (⟨rfl, hle⟩ | h)
      · exact .inl ⟨rfl, hle⟩
      · exact .inr h
    · rintro (⟨rfl, hle⟩ | h)
      · exact .inl ⟨rfl, hle⟩
      · exact .inr h

/-- The loop over the ancestors. -/
theorem cleared_ancestors : ∀ (fuel : ℕ) (b : ι) (s : Index ι), T.nHeight b < fuel →
    ∃ s', reconsiderAncestors T fuel (some b) s = some s' ∧
      Cleared (fun x => T.forest.Le x b) s s' := by
  intro fuel
  induction fuel with
  | zero =>
    intro b s hfuel
    omega
  | succ fuel ih =>
    intro b s hfuel
    rw [reconsiderAncestors]
    -- the block itself
    have hself : Cleared (fun x => x = b) s
        (if BlockStatus.has (s.nStatus b) BlockStatus.failedMask then
          s.setStatus b (BlockStatus.clear (s.nStatus b)) else s) := by
      by_cases hfailed : BlockStatus.has (s.nStatus b) BlockStatus.failedMask = true
      · rw [if_pos hfailed]
        exact cleared_setStatus s b
      · rw [if_neg hfailed]
        refine ⟨rfl, fun _ _ => rfl, ?_⟩
        rintro x rfl
        exact hfailed
    cases hp : T.pprev b with
    | none =>
      refine ⟨_, by rw [reconsiderAncestors], hself.congr fun x => ⟨?_, ?_⟩⟩
      · rintro rfl
        exact Forest.Le.refl x
      · exact Forest.eq_of_le_root hp
    | some p =>
      have hheight := T.height_child b p hp
      obtain ⟨s', hrun, hs'⟩ := ih p _ (by omega)
      exact ⟨s', hrun, (hself.trans hs').congr fun x => (Forest.le_iff_of_parent hp).symm⟩

variable (T) in
/-- **`reconsiderBlock`** clears the block, its ancestors and its descendants, and nothing else. -/
theorem reconsiderBlock_spec (s : Index ι) (b : ι) : ∃ s', s.reconsiderBlock T b = some s' ∧
    Cleared (fun x => T.forest.Le x b ∨ x ∈ s.indexMap ∧ T.forest.Le b x) s s' := by
  obtain ⟨s', hrun, hs'⟩ := cleared_ancestors (T := T) (T.nHeight b + 1) b
    (s.indexMap.foldl (reconsiderEntry T b) s) (Nat.lt_succ_self _)
  exact ⟨s', hrun, ((cleared_foldl b s.indexMap s).trans hs').congr fun x => or_comm⟩

/-- **What reconsidering leaves.**  The block, its ancestors and its descendants have no failure
flag; the flags of the others are justified exactly when each of those with `BLOCK_FAILED_CHILD` has
a failed block below it that is not the block or an ancestor of it. -/
theorem reconsiderBlock_justified_iff (T : BlockIndex ι) (s : Index ι) (b : ι) :
    ∃ s', s.reconsiderBlock T b = some s' ∧
      ((s'.Justified T ∧ (∀ x, T.forest.Le x b → ¬ s'.Failed x) ∧
          ∀ x ∈ s.indexMap, T.forest.Le b x → ¬ s'.Failed x) ↔
        ∀ c ∈ s.indexMap, ¬ T.forest.Le c b → ¬ T.forest.Le b c → s.FailedChild c →
          ∃ a, T.forest.Le a c ∧ a ≠ c ∧ s.FailedValid a ∧ ¬ T.forest.Le a b) := by
  obtain ⟨s', hrun, hs'⟩ := reconsiderBlock_spec T s b
  have hdown : ∀ x, T.forest.Le x b → ¬ s'.Failed x := fun x hx => hs'.on x (.inl hx)
  have hup : ∀ x ∈ s.indexMap, T.forest.Le b x → ¬ s'.Failed x := fun x hx hbx =>
    hs'.on x (.inr ⟨hx, hbx⟩)
  refine ⟨s', hrun, ?_, fun hcond => ⟨?_, hdown, hup⟩⟩
  · -- the flag of a branch stays, and so must what justifies it
    rintro ⟨hjust, -, -⟩ c hc hcb hbc hchild
    have hsame : s'.nStatus c = s.nStatus c := hs'.off c fun hon =>
      hon.elim hcb fun hin => hbc hin.2
    have hchild' : s'.FailedChild c := by rwa [FailedChild, hsame]
    obtain ⟨a, hac, hne, hvalid⟩ := hjust c (by rwa [hs'.indexMap]) hchild'
    have hab : ¬ T.forest.Le a b := fun hle => hdown a hle hvalid.failed
    have hsame' : s'.nStatus a = s.nStatus a := hs'.off a fun hon =>
      hon.elim hab fun hin => hbc (hin.2.trans hac)
    rw [FailedValid, hsame'] at hvalid
    exact ⟨a, hac, hne, hvalid, hab⟩
  · intro c hc hchild
    rw [hs'.indexMap] at hc
    have hcb : ¬ T.forest.Le c b := fun hle => hdown c hle hchild.failed
    have hbc : ¬ T.forest.Le b c := fun hle => hup c hc hle hchild.failed
    have hsame : s'.nStatus c = s.nStatus c := hs'.off c fun hon =>
      hon.elim hcb fun hin => hbc hin.2
    rw [FailedChild, hsame] at hchild
    obtain ⟨a, hac, hne, hvalid, hab⟩ := hcond c hc hcb hbc hchild
    have hsame' : s'.nStatus a = s.nStatus a := hs'.off a fun hon =>
      hon.elim hab fun hin => hbc (hin.2.trans hac)
    refine ⟨a, hac, hne, ?_⟩
    rwa [FailedValid, hsame']

/-! ## Failing -/

/-- A failed block stays failed when flags are set. -/
theorem FailedValid.setStatus (h : s.FailedValid a) (x : ι) (flag : UInt32) :
    (s.setStatus x (s.nStatus x ||| flag)).FailedValid a := by
  by_cases hax : a = x
  · subst hax
    show BlockStatus.has (Function.update s.nStatus a _ a) _ = true
    rw [Function.update_self, BlockStatus.has_or, Bool.or_eq_true]
    exact .inl h
  · show BlockStatus.has (Function.update s.nStatus x _ a) _ = true
    rw [Function.update_of_ne hax]
    exact h

/-- A block above a failed one gets its flag. -/
theorem Justified.failChild (h : s.Justified T) (hb : s.FailedValid b) (hbx : T.forest.Le b x)
    (hne : b ≠ x) : (s.setStatus x (s.nStatus x ||| BlockStatus.failedChild)).Justified T := by
  intro c hc hchild
  by_cases hcx : c = x
  · subst hcx
    exact ⟨b, hbx, hne, hb.setStatus c _⟩
  · have hsame : (s.setStatus x (s.nStatus x ||| BlockStatus.failedChild)).nStatus c =
        s.nStatus c := Function.update_of_ne hcx _ _
    rw [FailedChild, hsame] at hchild
    obtain ⟨a, hac, hne', hvalid⟩ := h c hc hchild
    exact ⟨a, hac, hne', hvalid.setStatus x _⟩

/-- The walk from a tip. -/
theorem justified_failChildren : ∀ (fuel : ℕ) (tip : ι) (s : Index ι), T.nHeight tip ≤ fuel →
    s.Justified T → s.FailedValid b → T.forest.Le b tip →
    ∃ s', failChildren T b fuel (some tip) s = some s' ∧ s'.Justified T ∧ s'.FailedValid b := by
  intro fuel
  induction fuel with
  | zero =>
    intro tip s hfuel h hb hle
    have hheight : T.nHeight tip ≤ T.nHeight b := by omega
    rw [failChildren, if_pos (hle.eq_of_height hheight).symm]
    exact ⟨s, rfl, h, hb⟩
  | succ fuel ih =>
    intro tip s hfuel h hb hle
    rw [failChildren]
    by_cases htip : tip = b
    · rw [if_pos htip]
      exact ⟨s, rfl, h, hb⟩
    · rw [if_neg htip]
      cases hp : T.pprev tip with
      | none => exact absurd (Forest.eq_of_le_root hp hle).symm htip
      | some p =>
        have hheight := T.height_child tip p hp
        have hbp : T.forest.Le b p :=
          ((Forest.le_iff_of_parent hp).mp hle).resolve_left (Ne.symm htip)
        exact ih p _ (by omega) (h.failChild hb hle (Ne.symm htip)) (hb.setStatus tip _) hbp

/-- **A block fails**, and the flags that `handleFailedBlock` sets are justified. -/
theorem justified_failBlock (h : s.Justified T) (headerChainTips : List ι) (b : ι) :
    ∃ s', s.failBlock T headerChainTips b = some s' ∧ s'.Justified T ∧ s'.FailedValid b := by
  have hsame : ∀ {x}, x ≠ b → (s.setFailedValid b).nStatus x = s.nStatus x := fun hx =>
    Function.update_of_ne hx _ _
  have hself : (s.setFailedValid b).nStatus b = s.nStatus b ||| BlockStatus.failedValid :=
    Function.update_self _ _ _
  have hb : (s.setFailedValid b).FailedValid b := by
    rw [FailedValid, hself, BlockStatus.has_or, Bool.or_eq_true]
    exact .inr (by decide)
  have hjust : (s.setFailedValid b).Justified T := by
    intro c hc hchild
    have hchild' : s.FailedChild c := by
      by_cases hcb : c = b
      · subst hcb
        rw [FailedChild, hself, BlockStatus.has_or, Bool.or_eq_true] at hchild
        exact hchild.resolve_right (by decide)
      · rwa [FailedChild, hsame hcb] at hchild
    obtain ⟨a, hac, hne, hvalid⟩ := h c hc hchild'
    refine ⟨a, hac, hne, ?_⟩
    by_cases hab : a = b
    · rwa [hab]
    · rwa [FailedValid, hsame hab]
  rw [failBlock]
  clear hself hsame
  generalize s.setFailedValid b = s₁ at hb hjust
  induction headerChainTips generalizing s₁ with
  | nil => exact ⟨s₁, rfl, hjust, hb⟩
  | cons tip tips ih =>
    rw [List.foldlM_cons]
    by_cases htip : T.getAncestorAt tip (T.nHeight b) = some b
    · have hle : T.forest.Le b tip := by
        rw [BlockIndex.getAncestorAt_eq, if_pos (by omega), Int.toNat_natCast] at htip
        exact Forest.ancestor?_height_iff.mp htip
      obtain ⟨s₂, hrun, hjust₂, hb₂⟩ :=
        justified_failChildren (T.nHeight tip) tip s₁ le_rfl hjust hb hle
      rw [if_pos htip, hrun]
      exact ih s₂ hb₂ hjust₂
    · rw [if_neg htip]
      exact ih s₁ hb hjust

/-! ## A branch next to the block -/

local instance neZero_siblings : NeZero 4 := ⟨by decide⟩

/-- Two blocks on top of the block `1`. -/
def siblings : BlockIndex (Fin 4) where
  pprev := ![none, some 0, some 1, some 1]
  nHeight := ![0, 1, 2, 2]
  nChainWork := ![1, 2, 3, 3]
  pskip := ![none, none, none, none]
  height_root := by decide
  height_child := by decide
  skip := by
    intro b s
    fin_cases b <;> intro hs <;> cases hs

/-- They are valid. -/
def siblingsIndex : Index (Fin 4) where
  indexMap := [0, 1, 2, 3]
  nStatus _ := 29
  setDirtyBlockIndex := []

theorem justified_siblingsIndex : siblingsIndex.Justified siblings := by
  intro c _ hchild
  revert c
  decide

/-- Block `1` fails, and block `2` is reconsidered: all its ancestors are valid again, and block `3`
still descends from a failed block. -/
theorem not_justified_siblings : ∃ s s', siblingsIndex.failBlock siblings [2, 3] 1 = some s ∧
    s.Justified siblings ∧ s.reconsiderBlock siblings 2 = some s' ∧ ¬ s'.Justified siblings ∧
    s'.FailedChild 3 ∧ ∀ a, ¬ s'.FailedValid a := by
  obtain ⟨s, hs, hjust, -⟩ := justified_failBlock justified_siblingsIndex [2, 3] 1
  refine ⟨_, _, rfl, ?_, rfl, ?_, by decide, by decide⟩
  · obtain rfl := Option.some.inj hs
    exact hjust
  · intro hjust'
    obtain ⟨a, -, -, hvalid⟩ := hjust' 3 (by decide) (by decide)
    revert hvalid
    revert a
    decide

end Index

end Blocks
