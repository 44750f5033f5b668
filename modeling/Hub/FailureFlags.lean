/-
# Failure flags reach all descendants

`handleFailedBlock` finds the descendants of a failed block only through `headerChainTips`:
it walks from every tip above the block down to it.  So the marking is complete as long as
every block without a flag is at or below a tip.  This outlives the frontier: a failed block
can leave tips that are ancestors of others, or tips that have a flag themselves, but the
highest block without a flag always takes the place of what goes away.

`flagsClosed_of_run` is about all objects in the tree of headers, those in `Blocks::Index` and
those that have an older entry in their place.
-/
import Hub.InvalidateBlock

namespace Validation

open Blocks (DB)

variable {H : Type} [DecidableEq H] (P : Headers H)

/-! ## Runs -/

inductive Arrival (H : Type)
  /-- A header arrives; `hasFailed` is the result of its own checks. -/
  | header (h : H) (hasFailed busy : Bool)
  /-- The block of a known object turns out to be invalid, and not for a corruption. -/
  | failed (p : ℕ)

def arrive (s : Engine H) : Arrival H → Option (Engine H)
  | .header h hasFailed busy => blockHeaderValidated P s h hasFailed busy
  | .failed p => if p ∈ s.arena.attached then handleFailedBlock s p else some s

/-- A known block above one with `BLOCK_FAILED_VALID` or `BLOCK_FAILED_CHILD` has one of these
flags. -/
def FlagsClosed (s : Engine H) : Prop :=
  ∀ x y, y ∈ s.arena.attached → s.arena.Le x y → s.db.failed x = true → s.db.failed y = true

/-- There is a tip at or above `x`. -/
def Covered (s : Engine H) (x : ℕ) : Prop := ∃ i ∈ s.db.headerChainTips, s.arena.Le x i

/-- The flags are closed, and all objects without a flag are below tips, but for some that are
yet to be announced. -/
structure FlagsInv (pending : List ℕ) (s : Engine H) : Prop where
  closed : FlagsClosed s
  covers : ∀ x ∈ s.arena.attached, s.db.failed x = false → Covered s x ∨ x ∈ pending
  chain : ∀ t, s.db.headersChain.IsPath s.arena.toBlockIndex t →
    ∀ x, s.arena.Le x t → s.db.failed x = false → Covered s x

variable {P} {s s' u : Engine H} {g : H} {p q v t x y : ℕ} {pending pending' : List ℕ}

section Lemmas

omit [DecidableEq H]

theorem flagsInv_initial : FlagsInv [] (initial : Engine H) where
  closed := fun x y hy => by simp [initial, Arena.empty] at hy
  covers := fun x hx => by simp [initial, Arena.empty] at hx
  chain := fun t ht => by
    have hne := CChain.IsPath.ne_nil ht
    simp [initial, DB.empty] at hne

theorem FlagsInv.mono (h : FlagsInv pending s) (hsub : ∀ x ∈ pending, x ∈ pending') :
    FlagsInv pending' s :=
  ⟨h.closed, fun x hx hf => (h.covers x hx hf).imp_right (hsub x), h.chain⟩

/-! ## Marking -/

/-- The walk from a tip down to `p` passes all that is between. -/
theorem mem_above : ∀ (fuel tip : ℕ), s.arena.nHeight tip < fuel → s.arena.Le p y → y ≠ p →
    s.arena.Le y tip → y ∈ above s.arena p fuel tip := by
  intro fuel
  induction fuel with
  | zero =>
    intro tip hlt
    omega
  | succ fuel ih =>
    intro tip hlt hpy hne hyt
    have htip : tip ≠ p := by
      rintro rfl
      exact hne (hyt.antisymm hpy)
    rw [above, if_neg htip]
    by_cases heq : y = tip
    · rw [heq]
      exact List.mem_cons_self
    · apply List.mem_cons_of_mem
      cases hprev : s.arena.pprev tip with
      | none => exact absurd (Forest.eq_of_le_root (F := s.arena.toBlockIndex.forest) hprev hyt) heq
      | some z =>
        have hheight := s.arena.height_child tip z hprev
        have hyz : s.arena.Le y z :=
          ((Forest.le_iff_of_parent (F := s.arena.toBlockIndex.forest) hprev).mp hyt).resolve_left
            heq
        exact ih z (by omega) hpy hne hyz

/-- `handleFailedBlock` reaches every object above `p` that has no flag yet. -/
theorem FlagsInv.mem_failedBy (h : FlagsInv [p] s) (hy : y ∈ s.arena.attached)
    (hpy : s.arena.Le p y) (hf : s.db.failed y = false) : y ∈ failedBy s p := by
  by_cases heq : y = p
  · rw [heq]
    exact List.mem_cons_self
  · obtain ⟨tip, htip, hyt⟩ := (h.covers y hy hf).resolve_right (by simpa using heq)
    apply List.mem_cons_of_mem
    refine List.mem_flatMap.mpr ⟨tip, htip, ?_⟩
    have hpt : s.arena.Le p tip := hpy.trans hyt
    rw [if_pos (s.arena.getAncestor_eq_some_iff.mpr hpt)]
    exact mem_above _ tip (by omega) hpy heq hyt

/-- The walk does not go below `p`. -/
theorem le_above : ∀ (fuel tip : ℕ), s.arena.Le p tip → x ∈ above s.arena p fuel tip →
    s.arena.Le p x := by
  intro fuel
  induction fuel with
  | zero =>
    intro tip _ hx
    simp [above] at hx
  | succ fuel ih =>
    intro tip hpt hx
    rw [above] at hx
    split at hx
    · simp at hx
    · next htip =>
      rcases List.mem_cons.mp hx with rfl | hx
      · exact hpt
      · cases hprev : s.arena.pprev tip with
        | none => simp [hprev] at hx
        | some z =>
          rw [hprev] at hx
          rcases (Forest.le_iff_of_parent (F := s.arena.toBlockIndex.forest) hprev).mp hpt with
            rfl | hpz
          · exact absurd rfl htip
          · exact ih z hpz hx

/-- It marks nothing else. -/
theorem le_of_mem_failedBy (hx : x ∈ failedBy s p) : s.arena.Le p x := by
  rcases List.mem_cons.mp hx with rfl | hx
  · exact Forest.Le.refl x
  · obtain ⟨tip, htip, hx⟩ := List.mem_flatMap.mp hx
    split at hx
    · next hpt => exact le_above _ tip (s.arena.getAncestor_eq_some_iff.mp hpt) hx
    · simp at hx

/-- The flags are closed after the marking. -/
theorem FlagsInv.mark (h : FlagsInv [p] s) :
    FlagsClosed { s with db := s.db.mark (failedBy s p) } := by
  intro x y hy hxy hx
  rw [Blocks.mark_failed_iff] at hx ⊢
  rcases hx with hx | hx
  · exact .inl (h.closed x y hy hxy hx)
  · by_cases hf : s.db.failed y = true
    · exact .inl hf
    · exact .inr (h.mem_failedBy hy ((le_of_mem_failedBy hx).trans hxy) (by simpa using hf))

/-! ## Announcing -/

/-- A tip that is not at or below `p` stays. -/
theorem mem_eraseP_of_not_le {l : List ℕ} (hx : x ∈ l) (hxp : ¬ s.arena.Le x p) :
    x ∈ l.eraseP fun i => s.arena.toBlockIndex.forest.Le i p := by
  refine (List.mem_eraseP_of_neg ?_).mpr hx
  simpa using (show ¬ s.arena.toBlockIndex.forest.Le x p from hxp)

/-- A valid header takes no cover away. -/
theorem covered_of_announce {db' : DB ℕ}
    (hout : Blocks.AnnounceOutcome s.arena.toBlockIndex s.db p db') (hx : Covered s x) :
    ∃ i ∈ db'.headerChainTips, s.arena.Le x i := by
  obtain ⟨i, hi, hxi⟩ := hx
  cases hout with
  | known htips _ _ =>
    rw [htips]
    exact ⟨i, hi, hxi⟩
  | added htips _ _ =>
    rw [htips]
    by_cases hip : s.arena.Le i p
    · exact ⟨p, by simp, hxi.trans hip⟩
    · exact ⟨i, List.mem_append_left _ (mem_eraseP_of_not_le hi hip), hxi⟩

/-- A valid header that is announced is below a tip, and so is what is below it. -/
theorem FlagsInv.covered_of_announce {db' : DB ℕ} (h : FlagsInv pending s) (hs : Wf s)
    (hf : s.db.failed p = false)
    (hout : Blocks.AnnounceOutcome s.arena.toBlockIndex s.db p db') (hx : s.arena.Le x p) :
    ∃ i ∈ db'.headerChainTips, s.arena.Le x i := by
  cases hout with
  | added htips _ _ =>
    rw [htips]
    exact ⟨p, by simp, hx⟩
  | known htips _ hk =>
    rw [htips]
    rcases hk with hk | ⟨i, hi, hpi⟩
    · rcases hs.chain with ⟨hnil, -⟩ | ⟨t, -, ht⟩
      · simp [CChain.contains, hnil] at hk
      · obtain ⟨i, hi, hpi⟩ := h.chain t ht p (ht.contains_iff.mp hk) hf
        exact ⟨i, hi, hx.trans hpi⟩
    · exact ⟨i, hi, hx.trans hpi⟩

end Lemmas

/-- One round of the loop over the items: the first item is pending no more. -/
theorem FlagsInv.announce {db' : DB ℕ} (h : FlagsInv (p :: pending) s) (hs : Wf s)
    (hf : s.db.failed p = false) (hfailed : db'.failed = s.db.failed)
    (hout : Blocks.AnnounceOutcome s.arena.toBlockIndex s.db p db') :
    FlagsInv pending { insertIndex s p with db := db' } where
  closed := by
    intro x y hy hxy hx
    simp only [arena_insertIndex, hfailed] at hy hxy hx ⊢
    exact h.closed x y hy hxy hx
  covers := by
    intro x hx hxf
    simp only [Covered, arena_insertIndex, hfailed] at hx hxf ⊢
    rcases h.covers x hx hxf with hcov | hmem
    · exact .inl (Validation.covered_of_announce hout hcov)
    · rcases List.mem_cons.mp hmem with rfl | hmem
      · exact .inl (h.covered_of_announce hs hf hout (Forest.Le.refl x))
      · exact .inr hmem
  chain := by
    intro t ht x hxt hxf
    simp only [Covered, arena_insertIndex, hfailed] at ht hxt hxf ⊢
    rcases hout.isPath with hsame | hpath
    · rw [hsame] at ht
      exact Validation.covered_of_announce hout (h.chain t ht x hxt hxf)
    · obtain rfl : p = t := Option.some.inj (hpath.tip_eq.symm.trans ht.tip_eq)
      exact h.covered_of_announce hs hf hout hxt

omit [DecidableEq H] in
/-- Without flags above `p`, what has none is below the block that takes the place of `p` or
below a tip that stays. -/
theorem covered_of_fail {db db' : DB ℕ} {t' : ℕ}
    (hout : Blocks.FailOutcome s.arena.toBlockIndex db p v t db' t')
    (hbelow : s.arena.Le x p → s.arena.Le x v) (hnot : ¬ s.arena.Le p x)
    (hx : ∃ i ∈ db.headerChainTips, s.arena.Le x i) :
    ∃ i ∈ db'.headerChainTips, s.arena.Le x i := by
  obtain ⟨i, hi, hxi⟩ := hx
  cases hout with
  | replaced hfind htips _ =>
    rw [htips]
    by_cases hip : s.arena.Le i p
    · exact ⟨v, by simp, hbelow (hxi.trans hip)⟩
    · exact ⟨i, List.mem_append_left _ (mem_eraseP_of_not_le hi hip), hxi⟩
  | pruned hnone htips _ _ =>
    rw [htips]
    by_cases hpi : s.arena.Le p i
    · -- the tip above goes away, and `x` is not above `p`
      have hxv : s.arena.Le x v := by
        rcases Forest.Le.comparable hxi hpi with hxp | hpx
        · exact hbelow hxp
        · exact absurd hpx hnot
      by_cases hcov : ∃ j ∈ Blocks.survivors s.arena.toBlockIndex p db.headerChainTips,
          s.arena.toBlockIndex.forest.Le v j
      · obtain ⟨j, hj, hvj⟩ := hcov
        exact ⟨j, List.mem_append_left _ hj, hxv.trans hvj⟩
      · refine ⟨v, List.mem_append_right _ ?_, hxv⟩
        rw [if_pos ⟨⟨i, hi, hpi⟩, hcov⟩]
        exact List.mem_singleton_self v
    · exact ⟨i, List.mem_append_left _ (Blocks.mem_survivors.mpr ⟨hi, hpi⟩), hxi⟩

/-- **`handleFailedBlock`** keeps the flags closed and everything else covered. -/
theorem FlagsInv.handleFailedBlock (h : FlagsInv [p] s) (hs : Wf s)
    (hrun : handleFailedBlock s p = some s') : FlagsInv [] s' := by
  -- a loose object fails the assertion on its parent
  have hp : p ∈ s.arena.attached := by
    obtain ⟨r, hr, -⟩ := Option.map_eq_some_iff.mp hrun
    rw [arena_insertIndex, db_insertIndex] at hr
    have hf : (s.db.mark (failedBy s p)).failed p = true :=
      Blocks.mark_failed_iff.mpr (.inr List.mem_cons_self)
    obtain ⟨-, q, -, hq, -⟩ := Blocks.appendHeader_failed_inv hf hs.tips_nil hr
    exact (s.arena.closed p q hq).1
  have hmarked := (hs.mark fun x hx => hs.mem_failedBy hp hx).inserted (p := p) hp
  have hf : (insertIndex { s with db := s.db.mark (failedBy s p) } p).db.failed p = true := by
    rw [db_insertIndex]
    exact Blocks.mark_failed_iff.mpr (.inr List.mem_cons_self)
  obtain ⟨q, v, t, t', db', rfl, hwf, hfailed, hq, hvq, hvf, hmax, ht, ht', hout⟩ :=
    hmarked.announce_of_failed hf hrun
  simp only [arena_insertIndex, db_insertIndex] at hfailed hq hvq hvf hmax ht ht' hout
  have hclosed : FlagsClosed { s with db := s.db.mark (failedBy s p) } := h.mark
  have hcovers : ∀ x ∈ s.arena.attached, (s.db.mark (failedBy s p)).failed x = false →
      ∃ i ∈ db'.headerChainTips, s.arena.Le x i := by
    intro x hx hxf
    obtain ⟨hxf', hxm⟩ := Blocks.mark_failed_eq_false.mp hxf
    have hnot : ¬ s.arena.Le p x := fun hpx => hxm (h.mem_failedBy hx hpx hxf')
    have hcov := (h.covers x hx hxf').resolve_right fun hmem => by
      rw [List.mem_singleton.mp hmem] at hnot
      exact hnot (Forest.Le.refl p)
    refine covered_of_fail hout (fun hxp => ?_) hnot hcov
    rcases (Forest.le_iff_of_parent (F := s.arena.toBlockIndex.forest) hq).mp hxp with rfl | hxq
    · exact absurd (Forest.Le.refl x) hnot
    · exact hmax x hxq hxf
  refine ⟨?_, ?_, ?_⟩
  · intro x y hy hxy hx
    simp only [arena_insertIndex, hfailed] at hy hxy hx ⊢
    exact hclosed x y hy hxy hx
  · intro x hx hxf
    simp only [Covered, arena_insertIndex, hfailed] at hx hxf ⊢
    exact .inl (hcovers x hx hxf)
  · intro u hu x hxu hxf
    have hxa := mem_attached_of_le hxu (hwf.mem_of_isPath hu)
    simp only [Covered, arena_insertIndex, hfailed] at hxa hxf ⊢
    exact hcovers x hxa hxf

/-! ## New objects -/

/-- The new object has a flag exactly if its parent has one. -/
theorem Created.failed_iff {r : Engine H × ℕ} (h : Created P s g r) :
    r.1.db.failed x = true ↔ s.db.failed x = true ∨
      (x = r.2 ∧ ∃ q, findPrev P s g = some q ∧ s.db.failed q = true) := by
  cases h with
  | @child q prev hq =>
    simp only [prev, Option.some.injEq, exists_eq_left']
    split
    · next hf => simp [Blocks.mark_failed_iff, hf]
    · next hf => simp [hf]
  | genesis prev eq made => simp [prev]
  | loose prev ne => simp [prev]

theorem Created.tips_eq {r : Engine H × ℕ} (h : Created P s g r) :
    r.1.db.headerChainTips = s.db.headerChainTips ∧
      r.1.db.headersChain = s.db.headersChain := by
  cases h with
  | child prev hq =>
    dsimp only
    split
    · exact ⟨rfl, rfl⟩
    · exact ⟨rfl, rfl⟩
  | genesis prev eq made => exact ⟨rfl, rfl⟩
  | loose prev ne => exact ⟨rfl, rfl⟩

/-- **`createBlockIndexFor`** hands the flag of the parent on. -/
theorem Created.flagsInv {r : Engine H × ℕ} (h : Created P s g r) (hs : Wf s)
    (hi : FlagsInv [] s) : FlagsInv [r.2] r.1 := by
  obtain ⟨htips, hchain⟩ := h.tips_eq
  have hnew : r.2 ∉ s.arena.attached := by
    rw [h.snd_eq]
    exact length_not_mem_attached s.arena g
  have hnf : ¬ s.db.failed r.2 = true := fun hf => hnew (hs.failed _ hf)
  have hcovered : ∀ x ∈ s.arena.attached, Covered s x → Covered r.1 x := by
    rintro x - ⟨i, hi, hxi⟩
    refine ⟨i, htips ▸ hi, (h.grown.le_iff (hs.tips i hi)).mpr hxi⟩
  have hunfailed : ∀ x ∈ s.arena.attached, r.1.db.failed x = false → s.db.failed x = false := by
    intro x _ hxf
    by_contra hf
    have := h.failed_iff.mpr (.inl (by simpa using hf))
    rw [hxf] at this
    cases this
  refine ⟨?_, ?_, ?_⟩
  · intro x y hy hxy hx
    rw [h.failed_iff] at hx ⊢
    rcases h.mem_attached hy with hy | rfl
    · have hxy' := (h.grown.le_iff hy).mp hxy
      rcases hx with hx | ⟨rfl, -⟩
      · exact .inl (hi.closed x y hy hxy' hx)
      · exact absurd (mem_attached_of_le hxy' hy) hnew
    · rcases hx with hx | ⟨rfl, hq⟩
      · rcases (h.le_iff hs).mp hxy with rfl | ⟨q, hq, hxq⟩
        · exact absurd hx hnf
        · exact .inr ⟨rfl, q, hq, hi.closed x q (hs.findPrev_attached hq) hxq hx⟩
      · exact .inr ⟨rfl, hq⟩
  · intro x hx hxf
    rcases h.mem_attached hx with hx | rfl
    · exact .inl (hcovered x hx ((hi.covers x hx (hunfailed x hx hxf)).resolve_right (by simp)))
    · exact .inr (by simp)
  · intro t ht x hxt hxf
    rw [hchain] at ht
    obtain ⟨hta, ht'⟩ := hs.isPath_of_grown h.grown ht
    have hxt' := (h.grown.le_iff hta).mp hxt
    have hxa := mem_attached_of_le hxt' hta
    exact hcovered x hxa (hi.chain t ht' x hxt' (hunfailed x hxa hxf))

omit [DecidableEq H] in
/-- Adopting objects below an object without a flag. -/
theorem FlagsInv.adopt {B : Arena H} {orphans rest l adopted : List ℕ} (h : FlagsInv [p] s)
    (hs : Wf s) (hp : p ∈ s.arena.attached) (hf : s.db.failed p = false)
    (hB : Adopted P [p] s.arena orphans B rest l) (hperm : adopted.Perm l) :
    FlagsInv (p :: adopted) { s with arena := B, orphanBlocks := rest } := by
  have hR : ∀ r ∈ [p], r ∈ s.arena.attached := by simpa using hp
  have hgrown := hB.adopts.grown hR
  have hcovered : ∀ x, Covered s x → Covered { s with arena := B, orphanBlocks := rest } x := by
    rintro x ⟨i, hi, hxi⟩
    exact ⟨i, hi, (hgrown.le_iff (hs.tips i hi)).mpr hxi⟩
  refine ⟨?_, ?_, ?_⟩
  · intro x y hy hxy hx
    have hxa := hs.failed x hx
    rcases (hB.adopts.attached_iff hR).mp hy with hy | hy
    · exact h.closed x y hy ((hgrown.le_iff hy).mp hxy) hx
    · -- `x` is below `p`, which has no flag
      obtain ⟨r, hr, hxr⟩ := hB.adopts.exists_le hR hy hxa hxy
      obtain rfl : r = p := by simpa using hr
      have hclosed := h.closed x r hp hxr hx
      rw [hf] at hclosed
      cases hclosed
  · intro x hx hxf
    rcases (hB.adopts.attached_iff hR).mp hx with hx | hx
    · rcases h.covers x hx hxf with hcov | hmem
      · exact .inl (hcovered x hcov)
      · exact .inr (by simp [List.mem_singleton.mp hmem])
    · exact .inr (List.mem_cons_of_mem p (hperm.mem_iff.mpr hx))
  · intro t ht x hxt hxf
    obtain ⟨hta, ht'⟩ := hs.isPath_of_grown hgrown ht
    exact hcovered x (h.chain t ht' x ((hgrown.le_iff hta).mp hxt) hxf)

/-! ## Steps -/

/-- **The end of `blockHeaderValidated`.** -/
theorem FlagsInv.acceptHeader {hasFailed : Bool} (h : FlagsInv [p] s) (hs : Wf s)
    (hrun : acceptHeader P s p hasFailed = some s') : FlagsInv [] s' := by
  by_cases hf : (hasFailed || s.db.failed p) = true
  · rw [Validation.acceptHeader, if_pos hf] at hrun
    exact h.handleFailedBlock hs hrun
  by_cases hp : p ∈ s.arena.attached
  · -- announced with what it adopts
    obtain ⟨rfl, hpf⟩ : hasFailed = false ∧ s.db.failed p = false := by simpa using hf
    obtain ⟨B, rest, l, adopted, hB, hperm, hwf, hitems, heq⟩ := hs.acceptHeader_eq (P := P) hp hpf
    rw [heq] at hrun
    obtain ⟨u, hu, -, -, -, -, hQ⟩ := hwf.foldlM_announce
      (Q := fun items u => FlagsInv items u ∧ u.db.failed = s.db.failed) (p :: adopted) _ hitems
      ⟨h.adopt hs hp hpf hB hperm, rfl⟩ (by
        rintro u x items db' hx hu - - ⟨hinv, hfailed⟩ hout hfailed'
        refine ⟨hinv.announce hu ?_ hfailed' hout, hfailed'.trans hfailed⟩
        rw [hfailed]
        exact (hitems x hx).2)
    obtain rfl := Option.some.inj (hu.symm.trans hrun)
    exact hQ.1
  · -- parked
    rw [Validation.acceptHeader, if_neg hf, if_pos hp] at hrun
    obtain rfl := Option.some.inj hrun
    refine ⟨h.closed, fun x hx hxf => .inl ((h.covers x hx hxf).resolve_right ?_), h.chain⟩
    rintro hmem
    rw [List.mem_singleton.mp hmem] at hx
    exact hp hx

/-- What holds between the steps. -/
structure ArrivalInv (s : Engine H) : Prop where
  wf : Wf s
  flags : FlagsInv [] s

/-- **A step** keeps the flags closed. -/
theorem ArrivalInv.step {a : Arrival H} (h : ArrivalInv s) (hrun : arrive P s a = some s') :
    ArrivalInv s' := by
  cases a with
  | failed p =>
    rw [arrive] at hrun
    split at hrun
    · exact ⟨(h.wf.handleFailedBlock hrun).1,
        (h.flags.mono (by simp)).handleFailedBlock h.wf hrun⟩
    · obtain rfl := Option.some.inj hrun
      exact h
  | header g hasFailed busy =>
    rw [arrive, blockHeaderValidated] at hrun
    cases hp : s.index g with
    | some p =>
      simp only [hp] at hrun
      split at hrun
      · obtain rfl := Option.some.inj hrun
        exact h
      · have hattached := (h.wf.index g p hp).1
        exact ⟨(h.wf.acceptHeader (fun hnot => absurd hattached hnot) hrun).1,
          (h.flags.mono (by simp)).acceptHeader h.wf hrun⟩
    | none =>
      simp only [hp] at hrun
      have hcreated : Created P s g (createBlockIndexFor P s g) := h.wf.created g
      have hwf := hcreated.wf h.wf
      refine ⟨(hwf.acceptHeader (fun _ => ?_) hrun).1,
        (hcreated.flagsInv h.wf h.flags).acceptHeader hwf hrun⟩
      rw [hcreated.blocks_eq, hcreated.snd_eq, hcreated.orphanBlocks_eq, List.length_append]
      refine ⟨by simp, fun hmem => ?_⟩
      have := (h.wf.loose _ hmem).1
      omega

/-- **Failure flags are closed under descendants** after every run of arriving headers and
failing blocks. -/
theorem flagsClosed_of_run (P : Headers H) (es : List (Arrival H)) (s : Engine H)
    (hrun : es.foldlM (arrive P) initial = some s) : FlagsClosed s := by
  have h : ArrivalInv s := Runs.foldlM_inv (fun t a t' _ ht hstep => ht.step hstep)
    ⟨Wf.initial, flagsInv_initial⟩ hrun
  exact h.flags.closed

/-- The middle of a chain of four blocks fails, and then the last block arrives. -/
theorem flagsClosed_fourBlocks :
    ∃ s, [.header 0 false false, .header 1 false false, .header 2 false false, .failed 1,
      .header 3 false false].foldlM (arrive fourBlocks) initial = some s ∧
      s.db.failed 1 = true ∧ s.arena.attached.length = 4 ∧ FlagsClosed s := by
  have hend : ([.header 0 false false, .header 1 false false, .header 2 false false, .failed 1,
      .header 3 false false].foldlM (arrive fourBlocks) initial).map
        (fun s => (s.db.failed 1, s.arena.attached.length)) = some (true, 4) := by
    decide +kernel
  obtain ⟨s, hs, heq⟩ := Option.map_eq_some_iff.mp hend
  obtain ⟨hf, hlen⟩ := Prod.mk.inj heq
  exact ⟨s, hs, hf, hlen, flagsClosed_of_run fourBlocks _ s hs⟩

end Validation
