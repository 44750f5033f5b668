/-
# The pointer to the best header

`appendHeader` moves the headers chain at four places, and the global `pindexBestHeader` at
three of them.  When a header fails, the place that cuts the chain back leaves the pointer
where it was, and the place that switches to a better chain points it at the failed header.

`always_bestIsTip_iff` says when the pointer stays at the end of the chain.  Nothing is
asked of the failure flags that are set before a call, beyond that the call fails no
assertion, so that this covers `handleFailedBlock` and `invalidateBlock` alike.
-/
import Hub.HeaderWork

namespace Blocks

variable {ι : Type} [DecidableEq ι] {T : BlockIndex ι} {s s' : HeaderState ι}
  {b p t v x : ι} {marked : List ι}

/-- The pointer is at the end of the chain, and not at a failed block. -/
def BestIsTip (s : HeaderState ι) : Prop :=
  s.db.pindexBestHeader = s.db.headersChain.tip ∧
    ∀ t ∈ s.db.pindexBestHeader, s.db.failed t = false

/-- What the assertions of `appendHeader` are about: a header that is announced as failed
has a block below it that has not failed, and there is a chain. -/
def Callable (T : BlockIndex ι) (s : HeaderState ι) : HeaderEvent ι → Prop
  | .announce b => s.db.failed b = false
  | .fail b marked => (s.db.mark marked).failed b = true ∧ s.db.headersChain.tip.isSome ∧
      ∃ r, T.forest.Le r b ∧ (s.db.mark marked).failed r = false

/-- `v` is the highest block at or below `b` without a failure flag. -/
def HighestValid (T : BlockIndex ι) (failed : ι → Bool) (b v : ι) : Prop :=
  T.forest.Le v b ∧ failed v = false ∧ ∀ x, T.forest.Le x b → failed x = false → T.forest.Le x v

/-- When a header `b` fails, the first tip at or below `b` is the end `t` of the chain; or
`t` has no failure flag, no tip leads from `b` to `t`, and neither the highest valid block
below `b` nor, if no tip is at or below `b`, the tips that lead up from it have more work
than `t`. -/
def BestSafe (T : BlockIndex ι) (s : HeaderState ι) : HeaderEvent ι → Prop
  | .announce _ => True
  | .fail b marked => ∀ t ∈ s.db.headersChain.tip,
      ∀ v, HighestValid T (s.db.mark marked).failed b v →
        match s.db.headerChainTips.find? fun i => T.forest.Le i b with
        | some tip => tip = t ∨
            ((s.db.mark marked).failed t = false ∧ T.nChainWork v ≤ T.nChainWork t)
        | none => (s.db.mark marked).failed t = false ∧
            (∀ i ∈ s.db.headerChainTips, T.forest.Le b i → ¬ T.forest.Le i t) ∧
            T.nChainWork (fallback T b v s.db.headerChainTips) ≤ T.nChainWork t

section Decidable

instance : DecidablePred (BestIsTip (ι := ι)) := fun s =>
  inferInstanceAs (Decidable (s.db.pindexBestHeader = s.db.headersChain.tip ∧
    ∀ t ∈ s.db.pindexBestHeader, s.db.failed t = false))

instance [Fintype ι] (s : HeaderState ι) : ∀ e : HeaderEvent ι, Decidable (Callable T s e)
  | .announce b => inferInstanceAs (Decidable (s.db.failed b = false))
  | .fail b marked => inferInstanceAs (Decidable ((s.db.mark marked).failed b = true ∧
      s.db.headersChain.tip.isSome ∧
      ∃ r, T.forest.Le r b ∧ (s.db.mark marked).failed r = false))

end Decidable

/-! ## The two ends of a call -/

/-- The last part of `appendHeader`, with the pointer. -/
theorem selectChain_best (db : DB ι) (ht : db.headersChain.IsPath T t) (b v : ι) (m : Bool) :
    ∃ r db', selectChain T db b v m = some (r, db') ∧
      ((T.nChainWork t < T.nChainWork v ∧ db'.headersChain.tip = some v ∧
          db'.pindexBestHeader = some b) ∨
        (T.nChainWork v ≤ T.nChainWork t ∧ db'.headersChain.tip = some t ∧
          db'.pindexBestHeader = db.pindexBestHeader)) := by
  rw [selectChain, ht.tip_eq, Option.map_some]
  by_cases hw : T.nChainWork t < T.nChainWork v
  · rw [if_pos hw]
    exact ⟨_, _, rfl, .inl ⟨hw, (CChain.setTip_isPath ht.valid v).tip_eq, rfl⟩⟩
  · rw [if_neg hw]
    exact ⟨_, _, rfl, .inr ⟨Nat.not_lt.mp hw, ht.tip_eq, rfl⟩⟩

/-- The pointer has moved to `b` with the chain, or both are where they were. -/
def Follows (db : DB ι) (b : ι) (db' : DB ι) : Prop :=
  (db'.headersChain.tip = some b ∧ db'.pindexBestHeader = some b) ∨
    (db'.headersChain.tip = db.headersChain.tip ∧ db'.pindexBestHeader = db.pindexBestHeader)

/-- With `b` itself in the place of `validPrev`, the pointer follows the chain. -/
theorem selectChain_follows {db e : DB ι} (hchain : e.headersChain = db.headersChain)
    (hbest : e.pindexBestHeader = db.pindexBestHeader) (ht : db.headersChain.IsPath T t) :
    ∃ r db', selectChain T e b b false = some (r, db') ∧ Follows db b db' := by
  obtain ⟨r, db', hrun, hcase⟩ := selectChain_best e (hchain ▸ ht) b b false
  refine ⟨r, db', hrun, ?_⟩
  rcases hcase with ⟨-, htip, hb⟩ | ⟨-, htip, hb⟩
  · exact .inl ⟨htip, hb⟩
  · exact .inr ⟨htip.trans ht.tip_eq.symm, hb.trans hbest⟩

/-- **Announcing a valid header.** -/
theorem appendHeader_follows {db : DB ι} (hb : db.failed b = false)
    (hc : db.headersChain.Valid T)
    (hempty : db.headersChain.vChain = [] → db.headerChainTips = []) :
    ∃ r db', appendHeader T db b = some (r, db') ∧ Follows db b db' := by
  have hskip : skipFailed T db.failed (T.nHeight b + 1) b = some b := by simp [skipFailed, hb]
  unfold appendHeader
  by_cases hin : db.headersChain.contains T b = true
  · exact ⟨false, db, by simp [hb, hin, guard], .inr ⟨rfl, rfl⟩⟩
  simp only [hb, Bool.not_false, Bool.true_or, Bool.true_and, guard, if_true, hin,
    Bool.false_eq_true, if_false, hskip, T.getAncestor_eq_some_iff, Option.bind_eq_bind,
    Option.pure_def, Option.bind_some]
  cases hfind : db.headerChainTips.find? fun tip => T.forest.Le tip b with
  | some tip =>
    rcases hc with hnil | ⟨t, ht⟩
    · have hmem := List.mem_of_find?_eq_some hfind
      rw [hempty hnil] at hmem
      cases hmem
    · dsimp only
      split
      · exact ⟨_, _, rfl, .inl ⟨(CChain.setTip_isPath ht.valid b).tip_eq, rfl⟩⟩
      · exact selectChain_follows rfl rfl ht
  | none =>
    simp only
    rw [sweep_of_valid (b := b) _ _ rfl]
    by_cases hknown : ∃ i ∈ db.headerChainTips, T.forest.Le b i
    · rw [if_pos hknown]
      exact ⟨false, db, rfl, .inr ⟨rfl, rfl⟩⟩
    · rw [if_neg hknown]
      simp only [Bool.false_and, Bool.false_eq_true, if_false]
      rcases hc with hnil | ⟨t, ht⟩
      · -- the first header of all
        have hh : db.headersChain.height = -1 := by simp [CChain.height, hnil]
        simp only [hh, beq_self_eq_true, if_true]
        exact ⟨_, _, rfl, .inl ⟨(CChain.setTip_isPath (.inl hnil) b).tip_eq, rfl⟩⟩
      · simp only [beq_iff_eq, ht.height_ne, if_false]
        exact selectChain_follows rfl rfl ht

/-- **Announcing a failed header** `b` to a chain with tip `t`, which `pindexBestHeader` points
at.  Here `v` is where the search for a valid block below `b` ends. -/
theorem appendHeader_best_of_failed {db : DB ι} (hb : db.failed b = true)
    (hp : T.pprev b = some p) (hv : skipFailed T db.failed (T.nHeight p + 1) p = some v)
    (ht : db.headersChain.IsPath T t) (hbest : db.pindexBestHeader = some t) :
    ∃ r db', appendHeader T db b = some (r, db') ∧
      (db'.pindexBestHeader = db'.headersChain.tip ↔
        match db.headerChainTips.find? fun i => T.forest.Le i b with
        | some tip => tip = t ∨ T.nChainWork v ≤ T.nChainWork t
        | none => (∀ i ∈ db.headerChainTips, T.forest.Le b i → ¬ T.forest.Le i t) ∧
            T.nChainWork (fallback T b v db.headerChainTips) ≤ T.nChainWork t) := by
  have hvb : T.forest.Le v p := (skipFailed_sound _ _ _ hv).1
  have hbv : ¬ T.forest.Le b v := fun h => Forest.not_le_parent (F := T.forest) hp (h.trans hvb)
  unfold appendHeader
  simp only [hb, hp, Bool.not_true, Bool.false_or, Option.isSome_some, Bool.false_and, guard,
    if_true, Bool.false_eq_true, if_false, hv, T.getAncestor_eq_some_iff, Option.bind_eq_bind,
    Option.pure_def, Option.bind_some]
  cases hfind : db.headerChainTips.find? fun tip => T.forest.Le tip b with
  | some tip =>
    simp only [ht.tip_eq, Option.some.injEq]
    by_cases htip : t = tip
    · rw [if_pos htip]
      refine ⟨_, _, rfl, ?_⟩
      simp only [(CChain.setTip_isPath ht.valid v).tip_eq, htip, true_or]
    · rw [if_neg htip]
      obtain ⟨r, db', hrun, hcase⟩ := selectChain_best { db with
        headerChainTips := db.headerChainTips.eraseP (fun tip => T.forest.Le tip b) ++ [v] }
        ht b v false
      refine ⟨r, db', hrun, ?_⟩
      rcases hcase with ⟨hlt, htip', hb'⟩ | ⟨hle, htip', hb'⟩
      · -- the chain ends at `v`, the pointer is at `b`
        rw [htip', hb', Option.some.injEq]
        constructor
        · rintro rfl
          exact absurd (Forest.Le.refl b) hbv
        · rintro (rfl | hle)
          · exact absurd rfl htip
          · omega
      · rw [htip', hb']
        exact ⟨fun _ => .inr hle, fun _ => hbest⟩
  | none =>
    obtain ⟨w, u, hrun, -, -, -, hprev, hpath, hsame, hle⟩ :=
      sweep_of_failed (b := b) db.headerChainTips
        ⟨[], db.headersChain, v, false, false, false⟩ t ht
    simp only [hrun]
    obtain ⟨r, db', hsel, hcase⟩ := selectChain_best (T := T)
      { db with
        headerChainTips := if (w.modified && !w.alreadyContains) = true
          then w.kept ++ [w.validPrev] else w.kept
        headersChain := w.headersChain } hpath b w.validPrev w.modifyingMainChain
    refine ⟨r, db', hsel, ?_⟩
    have hfall : w.validPrev = fallback T b v db.headerChainTips := hprev
    have hbfall : ¬ T.forest.Le b w.validPrev := by
      rw [hfall]
      rcases foldl_climb_mem (T := T) (survivors T b db.headerChainTips) v with heq | hmem
      · rw [fallback, heq]
        exact hbv
      · exact (mem_survivors.mp hmem).2
    by_cases hmain : ∃ i ∈ db.headerChainTips, T.forest.Le b i ∧ T.forest.Le i t
    · -- the chain is cut back, and ends neither at `t` nor at `b`
      have hu : ¬ T.forest.Le b u := fun h => hbfall (h.trans (hle (.inr hmain)))
      obtain ⟨i, hi, hbi, hit⟩ := hmain
      have hbroken : ¬ db'.pindexBestHeader = db'.headersChain.tip := by
        rcases hcase with ⟨-, htip', hb'⟩ | ⟨-, htip', hb'⟩
        · rw [htip', hb', Option.some.injEq]
          intro h
          exact hbfall (h ▸ Forest.Le.refl b)
        · rw [htip', hb', hbest, Option.some.injEq]
          intro h
          exact hu (h ▸ hbi.trans hit)
      exact ⟨fun h => absurd h hbroken, fun h => absurd hit (h.1 i hi hbi)⟩
    · have hkeep : ∀ i ∈ db.headerChainTips, T.forest.Le b i → ¬ T.forest.Le i t :=
        fun i hi hbi hit => hmain ⟨i, hi, hbi, hit⟩
      obtain rfl : u = t := hsame hkeep
      rw [← hfall]
      rcases hcase with ⟨hlt, htip', hb'⟩ | ⟨hle, htip', hb'⟩
      · rw [htip', hb', Option.some.injEq]
        constructor
        · intro h
          exact absurd (h ▸ Forest.Le.refl b) hbfall
        · rintro ⟨-, hle⟩
          omega
      · rw [htip', hb']
        exact ⟨fun _ => ⟨hkeep, hle⟩, fun _ => hbest⟩

/-! ## Runs -/

/-- Between the calls: the chain is a path, and the pointer is at its end. -/
structure BestInv (T : BlockIndex ι) (s : HeaderState ι) : Prop where
  chain : s.db.headersChain.Valid T
  empty : s.db.headersChain.vChain = [] → s.db.headerChainTips = []
  best : BestIsTip s

omit [DecidableEq ι] in
theorem bestInv_initial (failed : ι → Bool) : BestInv T (HeaderState.initial failed) where
  chain := .inl rfl
  empty := fun _ => rfl
  best := ⟨rfl, fun t ht => by cases ht⟩

theorem BestInv.announce (h : BestInv T s) (hc : Callable T s (.announce b)) :
    ∃ s', step T s (.announce b) = some s' ∧ BestInv T s' := by
  obtain ⟨r, db', hrun, hfailed, hout⟩ := appendHeader_of_valid hc h.chain h.empty
  obtain ⟨r', db'', hrun', hfollows⟩ := appendHeader_follows hc h.chain h.empty
  obtain ⟨rfl, rfl⟩ : r = r' ∧ db' = db'' := by simpa using hrun.symm.trans hrun'
  refine ⟨⟨db', b :: s.announced⟩, by rw [step, hrun]; rfl, ?_, ?_, ?_⟩
  · exact appendHeader_valid h.chain hrun
  · intro hnil
    rcases hout.isPath with hsame | hpath
    · cases hout with
      | known htips _ _ =>
        rw [htips]
        exact h.empty (hsame ▸ hnil)
      | added _ _ hchain =>
        rcases hchain with ⟨hpath, -⟩ | ⟨-, t, ht, -⟩
        · exact absurd hnil (CChain.IsPath.ne_nil hpath)
        · exact absurd (hsame ▸ hnil) (CChain.IsPath.ne_nil ht)
    · exact absurd hnil (CChain.IsPath.ne_nil hpath)
  · rcases hfollows with ⟨htip, hb⟩ | ⟨htip, hb⟩
    · refine ⟨hb.trans htip.symm, fun t ht => ?_⟩
      obtain rfl : b = t := Option.some.inj (hb.symm.trans ht)
      rw [hfailed]
      exact hc
    · refine ⟨(hb.trans h.best.1).trans htip.symm, fun t ht => ?_⟩
      rw [hfailed]
      exact h.best.2 t (hb ▸ ht)

/-- The search for `validPrev` finds the highest valid block. -/
theorem Callable.exists_validPrev (hc : Callable T s (.fail b marked)) :
    ∃ p v, T.pprev b = some p ∧
      skipFailed T (s.db.mark marked).failed (T.nHeight p + 1) p = some v ∧
      HighestValid T (s.db.mark marked).failed b v := by
  obtain ⟨hb, -, r, hrb, hr⟩ := hc
  cases hp : T.pprev b with
  | none =>
    obtain rfl := Forest.eq_of_le_root (F := T.forest) hp hrb
    rw [hr] at hb
    cases hb
  | some p =>
    -- a valid block at or below `b` is at or below the parent
    have hbelow : ∀ x, T.forest.Le x b → (s.db.mark marked).failed x = false →
        T.forest.Le x p := by
      intro x hx hxf
      rcases (Forest.le_iff_of_parent (F := T.forest) hp).mp hx with rfl | hxp
      · rw [hxf] at hb
        cases hb
      · exact hxp
    obtain ⟨v, hv, hvp, hvf, hmax⟩ :=
      skipFailed_spec hr (T.nHeight p + 1) p (by omega) (hbelow r hrb hr)
    exact ⟨p, v, rfl, hv, hvp.trans (Forest.Le.of_parent hp), hvf,
      fun x hx hxf => hmax x (hbelow x hx hxf) hxf⟩

omit [DecidableEq ι] in
theorem HighestValid.unique {failed : ι → Bool} (h : HighestValid T failed b v)
    (h' : HighestValid T failed b x) : v = x :=
  (h'.2.2 v h.1 h.2.1).antisymm (h.2.2 x h'.1 h'.2.1)

/-- With the end of the chain and the highest valid block at hand, `BestSafe` is about these. -/
theorem bestSafe_iff (ht : s.db.headersChain.IsPath T t)
    (hv : HighestValid T (s.db.mark marked).failed b v) :
    BestSafe T s (.fail b marked) ↔
      match s.db.headerChainTips.find? fun i => T.forest.Le i b with
      | some tip => tip = t ∨
          ((s.db.mark marked).failed t = false ∧ T.nChainWork v ≤ T.nChainWork t)
      | none => (s.db.mark marked).failed t = false ∧
          (∀ i ∈ s.db.headerChainTips, T.forest.Le b i → ¬ T.forest.Le i t) ∧
          T.nChainWork (fallback T b v s.db.headerChainTips) ≤ T.nChainWork t := by
  constructor
  · intro h
    exact h t ht.tip_eq v hv
  · intro h t' ht' v' hv'
    obtain rfl : t = t' := Option.some.inj (ht.tip_eq.symm.trans ht')
    obtain rfl := hv.unique hv'
    exact h

/-- A failed header keeps the pointer in its place exactly when the step is safe. -/
theorem BestInv.fail_iff (h : BestInv T s) (hc : Callable T s (.fail b marked)) :
    ∃ s', step T s (.fail b marked) = some s' ∧ s'.db.headersChain.Valid T ∧
      s'.db.headersChain.vChain ≠ [] ∧ (BestIsTip s' ↔ BestSafe T s (.fail b marked)) := by
  obtain ⟨p, v, hp, hv, hhighest⟩ := hc.exists_validPrev
  obtain ⟨t, ht⟩ : ∃ t, s.db.headersChain.IsPath T t := by
    refine h.chain.resolve_left fun hnil => ?_
    have hsome := hc.2.1
    rw [CChain.tip, hnil] at hsome
    cases hsome
  have hbest : s.db.pindexBestHeader = some t := h.best.1.trans ht.tip_eq
  obtain ⟨r, db', t', hrun, hfailed, hpath, hout⟩ := appendHeader_of_failed hc.1 hp hv ht
  obtain ⟨r', db'', hrun', hiff⟩ := appendHeader_best_of_failed hc.1 hp hv ht hbest
  obtain ⟨rfl, rfl⟩ : r = r' ∧ db' = db'' := by simpa using hrun.symm.trans hrun'
  refine ⟨⟨db', s.announced⟩, by rw [step, hrun]; rfl, hpath.valid,
    CChain.IsPath.ne_nil hpath, ?_⟩
  have hflag : BestIsTip ⟨db', s.announced⟩ ↔
      db'.pindexBestHeader = db'.headersChain.tip ∧ (s.db.mark marked).failed t' = false := by
    refine and_congr_right fun htip => ?_
    have hpointer : db'.pindexBestHeader = some t' := Eq.trans htip hpath.tip_eq
    simp [hpointer, hfailed]
  rw [hflag, hiff, bestSafe_iff ht hhighest]
  cases hout with
  | @replaced tip hfind htips hchain =>
    have hfind' : s.db.headerChainTips.find? (fun i => T.forest.Le i b) = some tip := hfind
    rw [hchain]
    simp only [hfind', show (s.db.mark marked).headerChainTips = s.db.headerChainTips from rfl]
    by_cases htip : tip = t
    · simp only [htip, true_or, if_true, true_and, iff_true]
      exact hhighest.2.1
    · by_cases hle : T.nChainWork v ≤ T.nChainWork t
      · simp only [htip, Nat.not_lt.mpr hle, or_self, if_false, false_or, hle, true_and, and_true]
      · simp only [htip, hle, false_or, false_and, and_false]
  | pruned hnone htips hstays hfalls =>
    have hfind : s.db.headerChainTips.find? (fun i => T.forest.Le i b) = none :=
      List.find?_eq_none.mpr fun i hi => by simpa using hnone i hi
    simp only [hfind, show (s.db.mark marked).headerChainTips = s.db.headerChainTips from rfl]
      at hstays ⊢
    constructor
    · rintro ⟨⟨hkeep, hle⟩, hf⟩
      rw [hstays hkeep, if_neg (Nat.not_lt.mpr hle)] at hf
      exact ⟨hf, hkeep, hle⟩
    · rintro ⟨hf, hkeep, hle⟩
      refine ⟨⟨hkeep, hle⟩, ?_⟩
      rw [hstays hkeep, if_neg (Nat.not_lt.mpr hle)]
      exact hf

/-- **When `pindexBestHeader` is the end of the headers chain.**  Along a run of calls that
fail no assertion it is, and has no failure flag, after every call if and only if every call
is safe. -/
theorem always_bestIsTip_iff (T : BlockIndex ι) (failed : ι → Bool) (es : List (HeaderEvent ι))
    (hc : Runs.Each (step T) (Callable T) (.initial failed) es) :
    Runs.Always (step T) BestIsTip (.initial failed) es ↔
      Runs.Each (step T) (BestSafe T) (.initial failed) es := by
  refine Runs.always_iff_each (I := BestInv T) ?_ ?_ ?_ es _ (bestInv_initial failed) hc
  · exact fun s hs => hs.best
  · intro s e hs hce hsafe
    cases e with
    | announce b => exact hs.announce hce
    | fail b marked =>
      obtain ⟨s', hstep, hvalid, hne, hiff⟩ := hs.fail_iff hce
      exact ⟨s', hstep, hvalid, fun hnil => absurd hnil hne, hiff.mpr hsafe⟩
  · intro s e s' hs hce hbroken hstep hbest
    cases e with
    | announce b => exact hbroken trivial
    | fail b marked =>
      obtain ⟨s₁, hstep₁, -, -, hiff⟩ := hs.fail_iff hce
      obtain rfl : s' = s₁ := Option.some.inj (hstep.symm.trans hstep₁)
      exact hbroken (hiff.mp hbest)

/-- After `1` fails, the chain ends at `0` and the pointer is still at `2`. -/
theorem not_always_bestIsTip_branchTree :
    Runs.Each (step branchTree) (Legal branchTree) (.initial fun _ => false)
        [.announce 0, .announce 1, .announce 2, .fail 1 [1, 2]] ∧
      Runs.Each (step branchTree) (Callable branchTree) (.initial fun _ => false)
        [.announce 0, .announce 1, .announce 2, .fail 1 [1, 2]] ∧
      ¬ Runs.Always (step branchTree) BestIsTip (.initial fun _ => false)
        [.announce 0, .announce 1, .announce 2, .fail 1 [1, 2]] := by
  decide +kernel

/-- When the end of the chain fails, the pointer goes back with the chain. -/
theorem always_bestIsTip_branchTree :
    Runs.Each (step branchTree) (Callable branchTree) (.initial fun _ => false)
        [.announce 0, .announce 1, .announce 2, .fail 2 [2]] ∧
      (Runs.Always (step branchTree) BestIsTip (.initial fun _ => false)
          [.announce 0, .announce 1, .announce 2, .fail 2 [2]] ↔
        Runs.Each (step branchTree) (BestSafe branchTree) (.initial fun _ => false)
          [.announce 0, .announce 1, .announce 2, .fail 2 [2]]) :=
  have hc : Runs.Each (step branchTree) (Callable branchTree) (.initial fun _ => false)
      [.announce 0, .announce 1, .announce 2, .fail 2 [2]] := by decide +kernel
  ⟨hc, always_bestIsTip_iff branchTree (fun _ => false) _ hc⟩

end Blocks
