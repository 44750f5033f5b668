/-
# Invalidated blocks

`Engine::invalidateBlock` sets a failure flag on one block and announces it, so that the
headers chain leaves it.  `handleFailedBlock` also sets the flag on all blocks above;
`invalidateBlock` does not, and later only the flag of the parent decides whether a header is
taken.  So a header on top of a block that descends from the invalidated one, at a distance,
finds no flag and brings the whole branch back (`not_sticks_grandchild`); and the search for
the last valid block below a failed header may stop at a block above the invalidated one.

An invalidated block is `Barred`: no tip and not the end of the chain is at or above it.
`barred_run` says that it stays so in every run in which a header that comes in on top of an
invalidated block finds flags all the way from there (`Careful`).
-/
import Hub.BlockArrival
import Hub.Runs
import Mathlib.Data.Fin.VecNotation

namespace Validation

open Blocks (DB)

/-! ## Runs -/

/-- The engine, and the objects that were invalidated. -/
structure Watched (H : Type) extends Engine H where
  invalidated : List ℕ

inductive Event (H : Type)
  /-- A header arrives; `hasFailed` is the result of its own checks. -/
  | header (h : H) (hasFailed busy : Bool)
  /-- `invalidateBlock` on the entry of `Blocks::Index`. -/
  | invalidate (h : H)

variable {H : Type} [DecidableEq H] (P : Headers H)

def step (w : Watched H) : Event H → Option (Watched H)
  | .header h hasFailed busy =>
      (blockHeaderValidated P w.toEngine h hasFailed busy).map fun s => ⟨s, w.invalidated⟩
  | .invalidate h =>
      match w.index h with
      | some p => (invalidateBlock w.toEngine p).map fun s => ⟨s, p :: w.invalidated⟩
      | none => some w

/-- No block that was invalidated, and no descendant of one, is part of the headers chain. -/
def Sticks (w : Watched H) : Prop :=
  ∀ b ∈ w.invalidated, ∀ x, w.arena.Le b x →
    w.db.headersChain.contains w.arena.toBlockIndex x = false

/-- All blocks from `b` up to `q` have a failure flag. -/
def Shut (s : Engine H) (b q : ℕ) : Prop :=
  ∀ y, s.arena.Le b y → s.arena.Le y q → s.db.failed y = true

/-- The tips are such that `appendHeader` finds the chains through `p`: besides the first tip
at or below `p` no tip is at or above `p`, and the headers chain does not go through `p`
unless that tip is its end; and if there is no such tip, then a headers chain through `p` goes
through a tip at or above `p`. -/
def TipsAround (s : Engine H) (p : ℕ) : Prop :=
  match s.db.headerChainTips.find? (fun i => s.arena.Le i p) with
  | some tip =>
      (∀ i ∈ s.db.headerChainTips.eraseP (fun i => s.arena.Le i p), ¬ s.arena.Le p i) ∧
        ∀ t ∈ s.db.headersChain.tip, s.arena.Le p t → tip = t
  | none => ∀ t ∈ s.db.headersChain.tip, s.arena.Le p t →
      ∃ i ∈ s.db.headerChainTips, s.arena.Le p i ∧ s.arena.Le i t

/-- A header that is taken, a header that fails and a block that is invalidated on top of an
invalidated block find failure flags all the way down to that one. -/
def Careful (w : Watched H) : Event H → Prop
  | .header h hasFailed busy =>
      match w.index h with
      | some p => w.db.failed p = true ∨ busy = true ∨ ∀ b ∈ w.invalidated,
          if hasFailed then ∀ q ∈ w.arena.pprev p, Shut w.toEngine b q else Shut w.toEngine b p
      | none => ∀ q ∈ findPrev P w.toEngine h, ∀ b ∈ w.invalidated, Shut w.toEngine b q
  | .invalidate h => ∀ p ∈ w.index h, TipsAround w.toEngine p ∧
      ∀ q ∈ w.arena.pprev p, ∀ b ∈ w.invalidated, Shut w.toEngine b q

section Decidable

omit [DecidableEq H]

/-- The blocks up to `q` are its ancestors at the heights up to its own. -/
theorem shut_iff {s : Engine H} {b q : ℕ} : Shut s b q ↔
    ∀ k ∈ List.range (s.arena.nHeight q + 1), ∀ y ∈ s.arena.forest.ancestor? k q,
      s.arena.Le b y → s.db.failed y = true := by
  constructor
  · intro h k _ y hy hby
    exact h y hby (Forest.ancestor?_eq_some_iff.mp hy).1
  · intro h y hby hyq
    have hheight : s.arena.nHeight y ≤ s.arena.nHeight q := Forest.Le.height_le hyq
    exact h (s.arena.nHeight y) (List.mem_range.mpr (by omega)) y
      (Forest.ancestor?_height_iff.mpr hyq) hby

instance (s : Engine H) (b q : ℕ) : Decidable (Shut s b q) := decidable_of_iff _ shut_iff.symm

instance (s : Engine H) (p : ℕ) : Decidable (TipsAround s p) :=
  match hfind : s.db.headerChainTips.find? (fun i => s.arena.Le i p) with
  | some tip => decidable_of_iff
      ((∀ i ∈ s.db.headerChainTips.eraseP (fun i => s.arena.Le i p), ¬ s.arena.Le p i) ∧
        ∀ t ∈ s.db.headersChain.tip, s.arena.Le p t → tip = t) (by simp only [TipsAround, hfind])
  | none => decidable_of_iff
      (∀ t ∈ s.db.headersChain.tip, s.arena.Le p t →
        ∃ i ∈ s.db.headerChainTips, s.arena.Le p i ∧ s.arena.Le i t)
      (by simp only [TipsAround, hfind])

end Decidable

instance (w : Watched H) : ∀ e : Event H, Decidable (Careful P w e)
  | .header h hasFailed busy =>
      match hp : w.index h with
      | some p => decidable_of_iff (w.db.failed p = true ∨ busy = true ∨ ∀ b ∈ w.invalidated,
          if hasFailed then ∀ q ∈ w.arena.pprev p, Shut w.toEngine b q else Shut w.toEngine b p)
          (by simp only [Careful, hp])
      | none => decidable_of_iff
          (∀ q ∈ findPrev P w.toEngine h, ∀ b ∈ w.invalidated, Shut w.toEngine b q)
          (by simp only [Careful, hp])
  | .invalidate h => inferInstanceAs (Decidable (∀ p ∈ w.index h, TipsAround w.toEngine p ∧
      ∀ q ∈ w.arena.pprev p, ∀ b ∈ w.invalidated, Shut w.toEngine b q))

/-! ## Barred blocks -/

/-- No tip and not the end of the headers chain is at or above `b`. -/
structure Barred (s : Engine H) (b : ℕ) : Prop where
  attached : b ∈ s.arena.attached
  tips : ∀ i ∈ s.db.headerChainTips, ¬ s.arena.Le b i
  chain : ∀ t, s.db.headersChain.IsPath s.arena.toBlockIndex t → ¬ s.arena.Le b t

variable {P} {s s' : Engine H} {b p q v t : ℕ}

section Barred

omit [DecidableEq H]

theorem Shut.not_le (h : Shut s b q) (hv : s.arena.Le v q) (hf : s.db.failed v = false) :
    ¬ s.arena.Le b v := by
  intro hb
  rw [h v hb hv] at hf
  cases hf

namespace Barred

/-- More objects do not change the descendants among those that are there. -/
theorem grow (h : Barred s b) (hs : Wf s) {B : Arena H} {rest : List ℕ}
    (hB : Arena.Grown s.arena B) : Barred { s with arena := B, orphanBlocks := rest } b where
  attached := hB.attached b h.attached
  tips := fun i hi hle => h.tips i hi ((hB.le_iff (hs.tips i hi)).mp hle)
  chain := fun t ht hle => by
    obtain ⟨hattached, hpath⟩ := hs.isPath_of_grown hB ht
    exact h.chain t hpath ((hB.le_iff hattached).mp hle)

/-- A valid header elsewhere. -/
theorem announce (h : Barred s b) {db' : DB ℕ}
    (hout : Blocks.AnnounceOutcome s.arena.toBlockIndex s.db p db') (hp : ¬ s.arena.Le b p) :
    Barred { s with db := db' } b where
  attached := h.attached
  tips := fun i hi => by
    rcases hout.mem_tips hi with rfl | hi
    · exact hp
    · exact h.tips i hi
  chain := fun t ht => by
    rcases hout.isPath with hsame | hpath
    · rw [hsame] at ht
      exact h.chain t ht
    · obtain rfl : p = t := Option.some.inj (hpath.tip_eq.symm.trans ht.tip_eq)
      exact hp

/-- A failed header with the last valid block elsewhere. -/
theorem fail (h : Barred s b) {db' : DB ℕ} {t t' : ℕ}
    (ht : s.db.headersChain.IsPath s.arena.toBlockIndex t)
    (ht' : db'.headersChain.IsPath s.arena.toBlockIndex t')
    (hout : Blocks.FailOutcome s.arena.toBlockIndex s.db p v t db' t') (hv : ¬ s.arena.Le b v) :
    Barred { s with db := db' } b where
  attached := h.attached
  tips := fun i hi => by
    rcases hout.mem_tips hi with rfl | hi
    · exact hv
    · exact h.tips i hi
  chain := fun u hu hle => by
    obtain rfl : t' = u := Option.some.inj (ht'.tip_eq.symm.trans hu.tip_eq)
    rcases hout.tip_le with rfl | hle' | ⟨i, hi, hle'⟩
    · exact h.chain _ ht hle
    · exact hv (Forest.Le.trans hle hle')
    · exact h.tips i (Blocks.mem_survivors.mp hi).1 (Forest.Le.trans hle hle')

end Barred

/-- **An invalidated block is barred**, if the tips around it are in order. -/
theorem barred_of_fail {db' : DB ℕ} {t t' : ℕ} (hp : p ∈ s.arena.attached)
    (htips : TipsAround s p) (hq : s.arena.pprev p = some q) (hv : s.arena.Le v q)
    (ht : s.db.headersChain.IsPath s.arena.toBlockIndex t)
    (ht' : db'.headersChain.IsPath s.arena.toBlockIndex t')
    (hout : Blocks.FailOutcome s.arena.toBlockIndex s.db p v t db' t') :
    Barred { s with db := db' } p := by
  have hpv : ¬ s.arena.Le p v := fun h =>
    Forest.not_le_parent (F := s.arena.toBlockIndex.forest) hq (h.trans hv)
  cases hout with
  | @replaced tip hfind htips' hchain =>
    unfold TipsAround at htips
    have hfind' : s.db.headerChainTips.find? (fun i => s.arena.Le i p) = some tip := hfind
    rw [hfind'] at htips
    obtain ⟨hother, hend⟩ := htips
    refine ⟨hp, fun i hi => ?_, fun u hu hle => ?_⟩
    · simp only [htips'] at hi
      rcases List.mem_append.mp hi with hi | hi
      · exact hother i hi
      · obtain rfl : i = v := by simpa using hi
        exact hpv
    · obtain rfl : t' = u := Option.some.inj (ht'.tip_eq.symm.trans hu.tip_eq)
      rw [hchain] at hle
      split at hle
      · exact hpv hle
      · next hne => exact hne (.inl (hend t ht.tip_eq hle))
  | pruned hnone htips' hstays hfalls =>
    unfold TipsAround at htips
    have hfind : s.db.headerChainTips.find? (fun i => s.arena.Le i p) = none :=
      List.find?_eq_none.mpr fun i hi => by
        rw [decide_eq_true_eq]
        exact hnone i hi
    rw [hfind] at htips
    have hfallback : ¬ s.arena.Le p
        (Blocks.fallback s.arena.toBlockIndex p v s.db.headerChainTips) := by
      rcases Blocks.foldl_climb_mem (T := s.arena.toBlockIndex)
          (Blocks.survivors s.arena.toBlockIndex p s.db.headerChainTips) v with hend | hend
      · rw [Blocks.fallback, hend]
        exact hpv
      · exact (Blocks.mem_survivors.mp hend).2
    refine ⟨hp, fun i hi => ?_, fun u hu hle => ?_⟩
    · simp only [htips'] at hi
      rcases List.mem_append.mp hi with hi | hi
      · exact (Blocks.mem_survivors.mp hi).2
      · split at hi
        · obtain rfl : i = v := by simpa using hi
          exact hpv
        · simp at hi
    · obtain rfl : t' = u := Option.some.inj (ht'.tip_eq.symm.trans hu.tip_eq)
      by_cases hmain : ∃ i ∈ s.db.headerChainTips, s.arena.Le p i ∧ s.arena.Le i t
      · exact hfallback (Forest.Le.trans hle (hfalls hmain).1)
      · rw [hstays fun i hi hpi hit => hmain ⟨i, hi, hpi, hit⟩] at hle
        split at hle
        · exact hfallback hle
        · exact hmain (htips t ht.tip_eq hle)

end Barred

/-! ## Steps -/

omit [DecidableEq H] in
theorem le_of_mem_above : ∀ (fuel tip x : ℕ), x ∈ above s.arena p fuel tip → s.arena.Le x tip := by
  intro fuel
  induction fuel with
  | zero =>
    intro tip x hx
    simp [above] at hx
  | succ fuel ih =>
    intro tip x hx
    rw [above] at hx
    split at hx
    · simp at hx
    · rcases List.mem_cons.mp hx with rfl | hx
      · exact Forest.Le.refl x
      · cases hprev : s.arena.pprev tip with
        | none => simp [hprev] at hx
        | some y =>
          rw [hprev] at hx
          exact Forest.Le.trans (ih y x hx)
            (Forest.Le.of_parent (F := s.arena.toBlockIndex.forest) hprev)

omit [DecidableEq H] in
/-- Flags are set on objects that are attached. -/
theorem Wf.mem_failedBy (h : Wf s) (hp : p ∈ s.arena.attached) {x : ℕ} (hx : x ∈ failedBy s p) :
    x ∈ s.arena.attached := by
  rcases List.mem_cons.mp hx with rfl | hx
  · exact hp
  · obtain ⟨tip, htip, hx⟩ := List.mem_flatMap.mp hx
    split at hx
    · exact mem_attached_of_le (le_of_mem_above _ tip x hx) (h.tips tip htip)
    · simp at hx

/-- **`handleFailedBlock`** keeps a block barred from which the flags reach up to the failed
one. -/
theorem Wf.handleFailedBlock (h : Wf s) (hrun : handleFailedBlock s p = some s') :
    Wf s' ∧ ∀ b, Barred s b → (∀ q, s.arena.pprev p = some q → Shut s b q) → Barred s' b := by
  -- a loose object fails the assertion on its parent
  have hp : p ∈ s.arena.attached := by
    obtain ⟨r, hr, -⟩ := Option.map_eq_some_iff.mp hrun
    rw [arena_insertIndex, db_insertIndex] at hr
    have hf : (s.db.mark (failedBy s p)).failed p = true :=
      Blocks.mark_failed_iff.mpr (.inr List.mem_cons_self)
    obtain ⟨-, q, -, hq, -⟩ := Blocks.appendHeader_failed_inv hf h.tips_nil hr
    exact (s.arena.closed p q hq).1
  have hmarked := (h.mark fun x hx => h.mem_failedBy hp hx).inserted (p := p) hp
  have hf : (insertIndex { s with db := s.db.mark (failedBy s p) } p).db.failed p = true := by
    rw [db_insertIndex]
    exact Blocks.mark_failed_iff.mpr (.inr List.mem_cons_self)
  obtain ⟨q, v, t, t', db', rfl, hwf, hfailed, hq, hvq, hvf, -, ht, ht', hout⟩ :=
    hmarked.announce_of_failed hf hrun
  refine ⟨hwf, fun b hb hshut => ?_⟩
  simp only [arena_insertIndex, db_insertIndex] at hq hvq hvf ht ht' hout
  have hbv := (hshut q hq).not_le hvq (Blocks.mark_failed_eq_false.mp hvf).1
  have hbar : Barred { s with db := s.db.mark (failedBy s p) } b := ⟨hb.attached, hb.tips, hb.chain⟩
  have hres := hbar.fail ht ht' hout hbv
  exact ⟨by simpa using hres.attached, by simpa using hres.tips, by simpa using hres.chain⟩

/-- **The end of `blockHeaderValidated`** keeps a block barred that the header is not above. -/
theorem Wf.acceptHeader {hasFailed : Bool} (h : Wf s)
    (hpark : p ∉ s.arena.attached → p < s.arena.blocks.length ∧ p ∉ s.orphanBlocks)
    (hrun : acceptHeader P s p hasFailed = some s') :
    Wf s' ∧ ∀ b, Barred s b →
      ((hasFailed || s.db.failed p) = true → ∀ q, s.arena.pprev p = some q → Shut s b q) →
      ((hasFailed || s.db.failed p) = false → ¬ s.arena.Le b p) → Barred s' b := by
  by_cases hf : (hasFailed || s.db.failed p) = true
  · rw [Validation.acceptHeader, if_pos hf] at hrun
    obtain ⟨hwf, hbar⟩ := h.handleFailedBlock hrun
    exact ⟨hwf, fun b hb hshut _ => hbar b hb (hshut hf)⟩
  · have hf' : (hasFailed || s.db.failed p) = false := by simpa using hf
    by_cases hp : p ∈ s.arena.attached
    · -- announced with what it adopts
      obtain ⟨rfl, hpf⟩ : hasFailed = false ∧ s.db.failed p = false := by simpa using hf'
      have hR : ∀ r ∈ [p], r ∈ s.arena.attached := by simpa using hp
      obtain ⟨B, rest, l, adopted, hB, hperm, hwf, hitems, heq⟩ := h.acceptHeader_eq (P := P) hp hpf
      rw [heq] at hrun
      have hgrown := hB.adopts.grown hR
      obtain ⟨u, hu, hwfu, harena, -, -, hQ⟩ := hwf.foldlM_announce
        (Q := fun _ u => ∀ b, Barred s b → ¬ s.arena.Le b p → Barred u b) (p :: adopted) _ hitems
        (fun b hb _ => hb.grow h hgrown) (by
          intro u x _ db' hx _ hua _ hQ hout _ b hb hbp
          have hbu := hQ b hb hbp
          have hbx : ¬ u.arena.Le b x := by
            rw [hua]
            intro hle
            rcases List.mem_cons.mp hx with rfl | hx
            · exact hbp ((hgrown.le_iff hp).mp hle)
            · obtain ⟨r, hr, hbr⟩ :=
                hB.adopts.exists_le hR (hperm.mem_iff.mp hx) hb.attached hle
              obtain rfl : r = p := by simpa using hr
              exact hbp hbr
          have hres := hbu.announce hout hbx
          exact ⟨by simpa using hres.attached, by simpa using hres.tips, by simpa using hres.chain⟩)
      obtain rfl := Option.some.inj (hu.symm.trans hrun)
      exact ⟨hwfu, fun b hb _ hle => hQ b hb (hle hf')⟩
    · -- parked
      rw [Validation.acceptHeader, if_neg hf, if_pos hp] at hrun
      obtain rfl := Option.some.inj hrun
      obtain ⟨hlt, hnot⟩ := hpark hp
      refine ⟨⟨h.chain, h.tips, h.index, h.failed, ?_, ?_⟩, fun b hb _ _ => ⟨hb.attached, hb.tips, hb.chain⟩⟩
      · exact List.nodup_append.mpr ⟨h.nodup, List.nodup_singleton p, by
          intro x hx y hy hxy
          rw [List.mem_singleton.mp hy] at hxy
          exact hnot (hxy ▸ hx)⟩
      · intro o ho
        rcases List.mem_append.mp ho with ho | ho
        · exact h.loose o ho
        · rw [List.mem_singleton.mp ho]
          exact ⟨hlt, hp⟩

/-- In a new object the flags below its parent are those that were there. -/
theorem Created.shut {g : H} {r : Engine H × ℕ} (h : Created P s g r)
    (hq : q ∈ s.arena.attached) (hshut : Shut s b q) : Shut r.1 b q := by
  intro y hby hyq
  have hyq' := (h.grown.le_iff hq).mp hyq
  have hby' := (h.grown.le_iff (mem_attached_of_le hyq' hq)).mp hby
  have hf := hshut y hby' hyq'
  cases h with
  | child prev hq' =>
    simp only
    split
    · exact Blocks.mark_failed_iff.mpr (.inl hf)
    · exact hf
  | genesis prev eq made => exact hf
  | loose prev ne => exact hf

theorem Created.barred {g : H} {r : Engine H × ℕ} (h : Created P s g r)
    (hs : Wf s) (hb : Barred s b) : Barred r.1 b := by
  have hgrow : Barred { s with arena := r.1.arena, orphanBlocks := s.orphanBlocks } b :=
    hb.grow hs h.grown
  cases h with
  | child prev hq' =>
    simp only
    split
    · exact ⟨hgrow.attached, hgrow.tips, hgrow.chain⟩
    · exact hgrow
  | genesis prev eq made => exact hgrow
  | loose prev ne => exact hgrow

/-- What holds in every state of a careful run. -/
structure BarredInv (w : Watched H) : Prop where
  wf : Wf w.toEngine
  barred : ∀ b ∈ w.invalidated, Barred w.toEngine b

omit [DecidableEq H] in
theorem BarredInv.sticks {w : Watched H} (h : BarredInv w) : Sticks w := by
  intro b hb x hbx
  rw [← Bool.not_eq_true]
  intro hx
  rcases h.wf.chain with ⟨hnil, -⟩ | ⟨t, -, ht⟩
  · simp [CChain.contains, hnil] at hx
  · exact (h.barred b hb).chain t ht (Forest.Le.trans hbx (ht.contains_iff.mp hx))

/-- A header for which there is an entry. -/
theorem BarredInv.known {w : Watched H} {h : H} {hasFailed busy : Bool} (hw : BarredInv w)
    (hp : w.index h = some p) (hc : Careful P w (.header h hasFailed busy))
    (hrun : blockHeaderValidated P w.toEngine h hasFailed busy = some s') :
    BarredInv ⟨s', w.invalidated⟩ := by
  rw [blockHeaderValidated, hp] at hrun
  rw [Careful, hp] at hc
  simp only at hrun hc
  split at hrun
  · obtain rfl := Option.some.inj hrun
    exact hw
  · next hskip =>
    obtain ⟨hf, rfl⟩ : w.db.failed p = false ∧ busy = false := by simpa using hskip
    have hcond := (hc.resolve_left (by simp [hf])).resolve_left (by simp)
    have hattached := (hw.wf.index h p hp).1
    obtain ⟨hwf, hbar⟩ := hw.wf.acceptHeader (fun hnot => absurd hattached hnot) hrun
    refine ⟨hwf, fun b hb => hbar b (hw.barred b hb) (fun hfail => ?_) fun hvalid => ?_⟩
    · have hfailed : hasFailed = true := by simpa [hf] using hfail
      simpa [hfailed] using hcond b hb
    · have hok : hasFailed = false := by simpa [hf] using hvalid
      have hshut : Shut w.toEngine b p := by simpa [hok] using hcond b hb
      exact hshut.not_le (Forest.Le.refl p) hf

/-- A header for which there is no entry yet. -/
theorem BarredInv.unknown {w : Watched H} {h : H} {hasFailed busy : Bool} (hw : BarredInv w)
    (hp : w.index h = none) (hc : Careful P w (.header h hasFailed busy))
    (hrun : blockHeaderValidated P w.toEngine h hasFailed busy = some s') :
    BarredInv ⟨s', w.invalidated⟩ := by
  rw [blockHeaderValidated, hp] at hrun
  rw [Careful, hp] at hc
  simp only at hrun hc
  have hcreated : Created P w.toEngine h (createBlockIndexFor P w.toEngine h) := hw.wf.created h
  obtain ⟨hwf, hbar⟩ := (hcreated.wf hw.wf).acceptHeader (fun _ => by
    rw [hcreated.blocks_eq, hcreated.snd_eq, hcreated.orphanBlocks_eq, List.length_append]
    refine ⟨by simp, fun hmem => ?_⟩
    have := (hw.wf.loose _ hmem).1
    omega) hrun
  refine ⟨hwf, fun b hb => hbar b (hcreated.barred hw.wf (hw.barred b hb)) ?_ ?_⟩
  · -- the header fails: flags reach from its parent down to `b`
    intro _ q hq
    rw [hcreated.pprev_eq] at hq
    exact hcreated.shut (hw.wf.findPrev_attached hq) (hc q hq b hb)
  · -- the header is valid, so its parent is
    intro hvalid hle
    rcases (hcreated.le_iff hw.wf).mp hle with heq | ⟨q, hq, hle⟩
    · apply length_not_mem_attached w.arena h
      rw [← hcreated.snd_eq, ← heq]
      exact (hw.barred b hb).attached
    · have hf := hcreated.failed_of_prev hq (hc q hq b hb q hle (Forest.Le.refl q))
      simp [hf] at hvalid

/-- **A careful step** keeps invalidated blocks barred. -/
theorem BarredInv.step {w w' : Watched H} {e : Event H} (hw : BarredInv w) (hc : Careful P w e)
    (hrun : step P w e = some w') : BarredInv w' := by
  cases e with
  | header h hasFailed busy =>
    obtain ⟨s', hs', rfl⟩ := Option.map_eq_some_iff.mp hrun
    cases hp : w.index h with
    | some p => exact hw.known hp hc hs'
    | none => exact hw.unknown hp hc hs'
  | invalidate h =>
    rw [Validation.step] at hrun
    cases hp : w.index h with
    | none =>
      rw [hp] at hrun
      obtain rfl := Option.some.inj hrun
      exact hw
    | some p =>
      rw [hp] at hrun
      obtain ⟨s', hs', rfl⟩ := Option.map_eq_some_iff.mp hrun
      obtain ⟨htips, hshut⟩ := hc p hp
      have hattached := (hw.wf.index h p hp).1
      have hmarked : Wf { w.toEngine with db := w.db.mark [p] } :=
        hw.wf.mark (by simpa using hattached)
      obtain ⟨q, v, t, t', db', rfl, hwf, hfailed, hq, hvq, hvf, -, ht, ht', hout⟩ :=
        hmarked.announce_of_failed (p := p) (Blocks.mark_failed_iff.mpr (.inr (by simp))) hs'
      refine ⟨hwf, fun b hb => ?_⟩
      rcases List.mem_cons.mp hb with rfl | hb
      · exact barred_of_fail (s := { w.toEngine with db := w.db.mark [b] })
          hattached htips hq hvq ht ht' hout
      · have hold := hw.barred b hb
        have hbar : Barred { w.toEngine with db := w.db.mark [p] } b :=
          ⟨hold.attached, hold.tips, hold.chain⟩
        exact hbar.fail ht ht' hout
          ((hshut q hq b hb).not_le hvq (Blocks.mark_failed_eq_false.mp hvf).1)

/-- **Invalidation sticks** in every run whose steps are careful. -/
theorem sticks_of_careful (P : Headers H) (es : List (Event H)) (w : Watched H)
    (hc : Runs.Each (step P) (Careful P) ⟨initial, []⟩ es)
    (hrun : es.foldlM (step P) ⟨initial, []⟩ = some w) : Sticks w := by
  refine (Runs.foldlM_inv_of_each (fun s e s' hs hce hse => BarredInv.step hs hce hse)
    ?_ hc hrun : BarredInv w).sticks
  exact ⟨Wf.initial, by simp⟩

/-- A chain of four blocks. -/
def fourBlocks : Headers (Fin 4) where
  hashGenesisBlock := 0
  previousBlockId := ![none, some 0, some 1, some 2]
  bits := fun _ => 0x207fffff

/-- A header on top of the child of an invalidated block. -/
def grandchild : List (Event (Fin 4)) :=
  [.header 0 false false, .header 1 false false, .header 2 false false, .invalidate 1,
    .header 3 false false]

/-- It brings the invalidated block back. -/
theorem not_sticks_grandchild :
    ∃ w, grandchild.foldlM (step fourBlocks) ⟨initial, []⟩ = some w ∧ ¬ Sticks w := by
  have hback : (grandchild.foldlM (step fourBlocks) ⟨initial, []⟩).map (fun w =>
      (w.invalidated, w.db.headersChain.contains w.arena.toBlockIndex 1)) = some ([1], true) := by
    decide +kernel
  obtain ⟨w, hw, heq⟩ := Option.map_eq_some_iff.mp hback
  obtain ⟨hinv, hcontains⟩ := Prod.mk.inj heq
  refine ⟨w, hw, fun h => ?_⟩
  have hout := h 1 (by rw [hinv]; simp) 1 (Forest.Le.refl 1)
  rw [hcontains] at hout
  cases hout

/-- A header on top of the invalidated block itself finds its flag. -/
theorem sticks_child : ∃ w, [.header 0 false false, .header 1 false false, .invalidate 1,
      .header 2 false false].foldlM (step fourBlocks) ⟨initial, []⟩ = some w ∧
    w.invalidated = [1] ∧ Sticks w := by
  have hend : ([.header 0 false false, .header 1 false false, .invalidate 1,
      .header 2 false false].foldlM (step fourBlocks) ⟨initial, []⟩).map (·.invalidated)
        = some [1] := by
    decide +kernel
  obtain ⟨w, hw, hinv⟩ := Option.map_eq_some_iff.mp hend
  exact ⟨w, hw, hinv, sticks_of_careful fourBlocks _ w (by decide +kernel) hw⟩

end Validation
