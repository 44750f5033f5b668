/-
# The headers chain with the most work

`headersChain` is meant to end at the header with the most work among those that have no
failed block on their path.  Announcing valid headers keeps it that way.  When a header
of the chain fails, `appendHeader` falls back to the parent of the header or to the first
tip that descends from the parent, and never looks at the other tips.

`always_maxWork_iff` says when this goes well.  Without failures the order in which
headers are announced does not matter (`announce_order`).
-/
import Hub.HeaderFrontier

namespace Blocks

variable {ι : Type} [DecidableEq ι] {T : BlockIndex ι} {s s' : HeaderState ι} {b p t v x : ι}
  {marked : List ι}

/-- `nChainWork` grows along `pprev`. -/
def StrictWork (T : BlockIndex ι) : Prop :=
  ∀ b p, T.pprev b = some p → T.nChainWork p < T.nChainWork b

/-- The tip of the chain is a good header, and none has more work. -/
def MaxWork (T : BlockIndex ι) (s : HeaderState ι) : Prop :=
  s.announced ≠ [] → ∃ t, s.db.headersChain.tip = some t ∧
    Good T s.db.failed s.announced t ∧
    ∀ x, Good T s.db.failed s.announced x → T.nChainWork x ≤ T.nChainWork t

/-- When a good header fails, no tip is an ancestor of another. -/
def FrontierIntact (T : BlockIndex ι) (s : HeaderState ι) : HeaderEvent ι → Prop
  | .announce _ => True
  | .fail b _ => s.db.failed b = false → T.forest.Incomparable s.db.headerChainTips

/-- When a good header `b` of the chain fails, no tip that stays has more work than the
first one that descends from the parent of `b`, or than the parent itself if `b` is a tip
or none descends from the parent. -/
def WorkSafe (T : BlockIndex ι) (s : HeaderState ι) : HeaderEvent ι → Prop
  | .announce _ => True
  | .fail b _ => s.db.failed b = false → s.db.headersChain.contains T b = true →
      ∀ p, T.pprev b = some p → ∀ x ∈ survivors T b s.db.headerChainTips,
        T.nChainWork x ≤ T.nChainWork (if b ∈ s.db.headerChainTips then p
          else ((survivors T b s.db.headerChainTips).find? fun i => T.forest.Le p i).getD p)

section Decidable

variable [Fintype ι]

instance : Decidable (MaxWork T s) :=
  inferInstanceAs (Decidable (s.announced ≠ [] → ∃ t, s.db.headersChain.tip = some t ∧
    Good T s.db.failed s.announced t ∧
    ∀ x, Good T s.db.failed s.announced x → T.nChainWork x ≤ T.nChainWork t))

instance : ∀ e : HeaderEvent ι, Decidable (FrontierIntact T s e)
  | .announce _ => .isTrue trivial
  | .fail b _ => inferInstanceAs
      (Decidable (s.db.failed b = false → T.forest.Incomparable s.db.headerChainTips))

end Decidable

/-- Between the calls of a run that is safe. -/
structure WorkInv (T : BlockIndex ι) (s : HeaderState ι) : Prop extends Inv T s where
  best : MaxWork T s

omit [DecidableEq ι] in
theorem workInv_initial (failed : ι → Bool) : WorkInv T (HeaderState.initial failed) :=
  { inv_initial failed with best := fun h => absurd rfl h }

omit [DecidableEq ι] in
/-- On a path, `MaxWork` is about the end of the path. -/
theorem maxWork_iff (hne : s.announced ≠ []) (ht : s.db.headersChain.IsPath T t) :
    MaxWork T s ↔ Good T s.db.failed s.announced t ∧
      ∀ x, Good T s.db.failed s.announced x → T.nChainWork x ≤ T.nChainWork t := by
  constructor
  · intro h
    obtain ⟨u, hu, hgood, hmax⟩ := h hne
    obtain rfl : t = u := Option.some.inj (ht.tip_eq.symm.trans hu)
    exact ⟨hgood, hmax⟩
  · rintro ⟨hgood, hmax⟩ _
    exact ⟨t, ht.tip_eq, hgood, hmax⟩

omit [DecidableEq ι] in
/-- The tip of the best chain is one of the tips. -/
theorem WorkInv.tip_mem (h : WorkInv T s) (hw : StrictWork T) (hne : s.announced ≠ [])
    (ht : s.db.headersChain.IsPath T t) : t ∈ s.db.headerChainTips := by
  obtain ⟨hgood, hmax⟩ := (maxWork_iff hne ht).mp h.best
  obtain ⟨i, hi, hti⟩ := h.covers t hgood
  obtain rfl := Forest.Le.eq_of_weight (F := T.forest) hw hti (hmax i (h.sub i hi))
  exact hi

/-! ## Valid headers -/

theorem WorkInv.announce (hw : StrictWork T) (h : WorkInv T s) (hl : Legal T s (.announce b)) :
    ∃ s', step T s (.announce b) = some s' ∧ WorkInv T s' := by
  obtain ⟨s', hstep, hann, hfailed, hout, hinv⟩ := h.toInv.announce hl
  refine ⟨s', hstep, { hinv with best := ?_ }⟩
  have hne : s'.announced ≠ [] := by simp [hann]
  have hgood : ∀ x, Good T s'.db.failed s'.announced x ↔
      T.forest.Le x b ∨ Good T s.db.failed s.announced x := by
    intro x
    rw [hann, hfailed]
    exact good_announce hl
  cases hout with
  | known htips hchain hknown =>
    have hann' : s.announced ≠ [] := by
      intro hnil
      rcases h.chain with ⟨-, hc, ht⟩ | ⟨t, -, hk⟩
      · rcases hknown with hk | ⟨i, hi, -⟩
        · simp [CChain.contains, hc] at hk
        · rw [ht] at hi
          cases hi
      · rw [hnil] at hk
        exact not_known_nil hk
    obtain ⟨t, ht, htk⟩ := h.exists_path hann'
    obtain ⟨htg, hmax⟩ := (maxWork_iff hann' ht).mp h.best
    have hb : Good T s.db.failed s.announced b := by
      refine ⟨?_, hl⟩
      rcases hknown with hc | ⟨i, hi, hbi⟩
      · exact htk.of_le (ht.contains_iff.mp hc)
      · exact (h.sub i hi).1.of_le hbi
    refine (maxWork_iff hne (t := t) (by rw [hchain]; exact ht)).mpr ⟨?_, fun x hx => ?_⟩
    · exact (hgood t).mpr (.inr htg)
    · rcases (hgood x).mp hx with hxb | hx
      · exact hmax x (hb.of_le hxb)
      · exact hmax x hx
  | added htips hfork hchain =>
    rcases hchain with ⟨hpath, hswitch⟩ | ⟨hsame, t, ht, hbt⟩
    · refine (maxWork_iff hne hpath).mpr ⟨(hgood b).mpr (.inl (Forest.Le.refl b)), fun x hx => ?_⟩
      rcases (hgood x).mp hx with hxb | hx
      · exact Forest.Le.weight_le (F := T.forest) hw hxb
      · have hann' : s.announced ≠ [] := by
          intro hnil
          rw [hnil] at hx
          exact not_known_nil hx.1
        obtain ⟨t, ht, -⟩ := h.exists_path hann'
        have hxt := ((maxWork_iff hann' ht).mp h.best).2 x hx
        rcases hswitch t ht with hlt | hle
        · omega
        · have := Forest.Le.weight_le (F := T.forest) hw hle
          omega
    · have hann' : s.announced ≠ [] := by
        intro hnil
        rcases h.chain with ⟨-, hc, -⟩ | ⟨u, -, hk⟩
        · have := ht.height_ne
          simp [CChain.height, hc] at this
        · rw [hnil] at hk
          exact not_known_nil hk
      obtain ⟨htg, hmax⟩ := (maxWork_iff hann' ht).mp h.best
      refine (maxWork_iff hne (t := t) (by rw [hsame]; exact ht)).mpr ⟨?_, fun x hx => ?_⟩
      · exact (hgood t).mpr (.inr htg)
      · rcases (hgood x).mp hx with hxb | hx
        · have := Forest.Le.weight_le (F := T.forest) hw hxb
          omega
        · exact hmax x hx

/-! ## Failed headers -/

/-- On an antichain the second loop moves `validPrev` to the first tip above it. -/
theorem foldl_climb_eq_find? (hw : StrictWork T) : ∀ (L : List ι), T.forest.Incomparable L →
    v ∉ L → L.foldl (climb T) v = (L.find? fun i => T.forest.Le v i).getD v := by
  intro L
  induction L with
  | nil =>
    intro _ _
    rfl
  | cons i L ih =>
    intro hL hv
    have hLtail := hL.sublist (List.sublist_cons_self i L)
    rw [List.foldl_cons]
    by_cases hvi : T.forest.Le v i
    · have hlt : T.nChainWork v < T.nChainWork i := by
        by_contra hge
        obtain rfl := Forest.Le.eq_of_weight (F := T.forest) hw hvi (Nat.not_lt.mp hge)
        exact hv (by simp)
      have hclimb : climb T v i = i := by simp [climb, hvi, hlt]
      have hstay : ∀ j ∈ L, ¬ T.forest.Le i j := by
        intro j hj hij
        obtain rfl := hL.eq_of_le (by simp) (List.mem_cons_of_mem i hj) hij
        exact (List.nodup_cons.mp hL.nodup).1 hj
      rw [hclimb, foldl_climb_of_not_le hstay, List.find?_cons_of_pos (by simpa using hvi)]
      rfl
    · have hclimb : climb T v i = v := by simp [climb, hvi]
      rw [hclimb, List.find?_cons_of_neg (by simpa using hvi)]
      exact ih hLtail fun h => hv (List.mem_cons_of_mem i h)

/-- A header that had failed before changes nothing. -/
theorem WorkInv.fail_again (hw : StrictWork T) (h : WorkInv T s)
    (hl : Legal T s (.fail b marked)) (hb : s.db.failed b = true) :
    ∃ s', step T s (.fail b marked) = some s' ∧ WorkInv T s' := by
  obtain ⟨s', p, v, t, t', hstep, hann, hfailed, hp, ht, ht', -, hvg, hmax, hout, hinv⟩ :=
    h.toInv.fail hl fun hf => by rw [hb] at hf; cases hf
  have hne : s.announced ≠ [] := List.ne_nil_of_mem hl.1
  obtain ⟨htg, hbest⟩ := (maxWork_iff hne ht).mp h.best
  -- nothing good is above `b`
  have habove : ∀ x, Good T s.db.failed s.announced x → ¬ T.forest.Le b x := by
    intro x hx hbx
    have := hx.2 b hbx
    rw [hb] at this
    cases this
  have hgood : ∀ x, Good T s'.db.failed s'.announced x ↔ Good T s.db.failed s.announced x := by
    intro x
    rw [hann, hfailed, good_mark hl]
    exact ⟨fun hx => hx.1, fun hx => ⟨hx, habove x hx⟩⟩
  have hvt : T.nChainWork v ≤ T.nChainWork t := hbest v ((good_mark hl).mp hvg).1
  have hsame : t' = t := by
    cases hout with
    | @replaced tip hfind htips hchain =>
      have htip := List.mem_of_find?_eq_some hfind
      have htb : T.forest.Le tip b := by simpa using List.find?_some hfind
      rw [hchain]
      split
      · rename_i hcase
        rcases hcase with rfl | hlt
        · have htv := hmax tip htb ((good_mark hl).mpr ⟨htg, habove tip htg⟩)
          exact (Forest.Le.eq_of_weight (F := T.forest) hw htv hvt).symm
        · omega
      · rfl
    | pruned hnone htips hstays hfalls =>
      have hfall : T.nChainWork (fallback T b v s.db.headerChainTips) ≤ T.nChainWork t := by
        rcases foldl_climb_mem (T := T) (survivors T b s.db.headerChainTips) v with heq | hmem
        · rw [fallback, heq]
          exact hvt
        · exact hbest _ (h.sub _ (mem_survivors.mp hmem).1)
      rw [hstays fun i hi hbi => absurd hbi (habove i (h.sub i hi))]
      exact if_neg (Nat.not_lt.mpr hfall)
  subst hsame
  refine ⟨s', hstep, { hinv with best := ?_ }⟩
  refine (maxWork_iff (by rw [hann]; exact hne) ht').mpr ⟨(hgood t').mpr htg, fun x hx => ?_⟩
  exact hbest x ((hgood x).mp hx)

/-- When a good header of the chain fails, the chain falls back to the block that
`WorkSafe` names. -/
theorem WorkInv.falls (hw : StrictWork T) (h : WorkInv T s)
    (hinc : T.forest.Incomparable s.db.headerChainTips)
    (hbg : Good T s.db.failed s.announced b) {v t t' : ι} {db' : DB ι}
    (htmem : t ∈ s.db.headerChainTips) (hvb : T.forest.Le v b)
    (hout : FailOutcome T (s.db.mark marked) b v t db' t') (hbt : T.forest.Le b t) :
    t' = if b ∈ s.db.headerChainTips then v
      else ((survivors T b s.db.headerChainTips).find? fun i => T.forest.Le v i).getD v := by
  cases hout with
  | @replaced tip hfind htips hchain =>
    have htip := List.mem_of_find?_eq_some hfind
    have htb : T.forest.Le tip b := by simpa using List.find?_some hfind
    obtain rfl := h.toInv.tip_eq_of_le hinc hbg htip htb
    obtain rfl := hinc.eq_of_le htip htmem hbt
    rw [hchain, if_pos (.inl rfl), if_pos (by exact htip)]
  | pruned hnone htips hstays hfalls =>
    have hbn : b ∉ s.db.headerChainTips := fun hmem => hnone b hmem (Forest.Le.refl b)
    obtain ⟨hle, hwork⟩ := hfalls ⟨t, htmem, hbt, Forest.Le.refl t⟩
    have hanti : T.forest.Incomparable (survivors T b s.db.headerChainTips) :=
      hinc.sublist List.filter_sublist
    have hvn : v ∉ survivors T b s.db.headerChainTips :=
      fun hmem => hnone v (mem_survivors.mp hmem).1 hvb
    rw [if_neg hbn, Forest.Le.eq_of_weight (F := T.forest) hw hle hwork, fallback]
    exact foldl_climb_eq_find? hw _ hanti hvn

/-- When a good header off the chain fails, the chain stays. -/
theorem WorkInv.stays (h : WorkInv T s) (hinc : T.forest.Incomparable s.db.headerChainTips)
    (hbg : Good T s.db.failed s.announced b) {v t t' : ι} {db' : DB ι}
    (hbest : ∀ x, Good T s.db.failed s.announced x → T.nChainWork x ≤ T.nChainWork t)
    (hvb : T.forest.Le v b) (hout : FailOutcome T (s.db.mark marked) b v t db' t')
    (hbt : ¬ T.forest.Le b t) : t' = t := by
  have hvt : T.nChainWork v ≤ T.nChainWork t := hbest v (hbg.of_le hvb)
  cases hout with
  | @replaced tip hfind htips hchain =>
    have htip := List.mem_of_find?_eq_some hfind
    have htb : T.forest.Le tip b := by simpa using List.find?_some hfind
    obtain rfl := h.toInv.tip_eq_of_le hinc hbg htip htb
    rw [hchain]
    refine if_neg ?_
    rintro (rfl | hlt)
    · exact hbt (Forest.Le.refl tip)
    · omega
  | pruned hnone htips hstays hfalls =>
    have hfall : T.nChainWork (fallback T b v s.db.headerChainTips) ≤ T.nChainWork t := by
      rcases foldl_climb_mem (T := T) (survivors T b s.db.headerChainTips) v with heq | hmem
      · rw [fallback, heq]
        exact hvt
      · exact hbest _ (h.sub _ (mem_survivors.mp hmem).1)
    rw [hstays fun i _ hbi hit => hbt (hbi.trans hit)]
    exact if_neg (Nat.not_lt.mpr hfall)

/-- When a good header fails, the chain keeps the most work exactly when the step is
safe. -/
theorem WorkInv.fail_iff (hw : StrictWork T) (h : WorkInv T s)
    (hl : Legal T s (.fail b marked)) (hinc : T.forest.Incomparable s.db.headerChainTips)
    (hb : s.db.failed b = false) :
    ∃ s', step T s (.fail b marked) = some s' ∧ Inv T s' ∧
      (MaxWork T s' ↔ WorkSafe T s (.fail b marked)) := by
  obtain ⟨s', p, v, t, t', hstep, hann, hfailed, hp, ht, ht', hvp, hvg, hmax, hout, hinv⟩ :=
    h.toInv.fail hl fun _ => hinc
  refine ⟨s', hstep, hinv, ?_⟩
  have hne : s.announced ≠ [] := List.ne_nil_of_mem hl.1
  obtain ⟨htg, hbest⟩ := (maxWork_iff hne ht).mp h.best
  have htmem := h.tip_mem hw hne ht
  have hbg : Good T s.db.failed s.announced b := h.flags.good_iff.mpr ⟨known_of_mem hl.1, hb⟩
  obtain rfl := validPrev_eq_parent h.flags hl hp hb hvp hmax
  have hvb : T.forest.Le v b := Forest.Le.of_parent hp
  have hgood : ∀ x, Good T s'.db.failed s'.announced x ↔
      Good T s.db.failed s.announced x ∧ ¬ T.forest.Le b x := by
    intro x
    rw [hann, hfailed]
    exact good_mark hl
  rw [maxWork_iff (by rw [hann]; exact hne) ht']
  by_cases hbt : T.forest.Le b t
  · have hfall := h.falls hw hinc hbg htmem hvb hout hbt
    -- it is good, and has at least the work of the parent
    have hfallGood : Good T s'.db.failed s'.announced t' ∧
        T.nChainWork v ≤ T.nChainWork t' := by
      have hvg' : Good T s'.db.failed s'.announced v := by
        rw [hann, hfailed]
        exact hvg
      rw [hfall]
      split
      · exact ⟨hvg', Nat.le_refl _⟩
      · cases hfind : (survivors T b s.db.headerChainTips).find? fun i => T.forest.Le v i with
        | none => exact ⟨hvg', Nat.le_refl _⟩
        | some i =>
          obtain ⟨hi, hbi⟩ := mem_survivors.mp (List.mem_of_find?_eq_some hfind)
          have hvi : T.forest.Le v i := by simpa using List.find?_some hfind
          exact ⟨(hgood i).mpr ⟨h.sub i hi, hbi⟩, Forest.Le.weight_le (F := T.forest) hw hvi⟩
    constructor
    · rintro ⟨-, hmaxi⟩ _ _ q hq x hx
      obtain rfl : v = q := Option.some.inj (hp.symm.trans hq)
      obtain ⟨hxm, hbx⟩ := mem_survivors.mp hx
      rw [← hfall]
      exact hmaxi x ((hgood x).mpr ⟨h.sub x hxm, hbx⟩)
    · intro hsafe
      refine ⟨hfallGood.1, fun x hx => ?_⟩
      obtain ⟨hxg, hbx⟩ := (hgood x).mp hx
      obtain ⟨i, hi, hxi⟩ := h.covers x hxg
      by_cases hbi : T.forest.Le b i
      · -- below a tip that goes away: at or below the parent
        rcases hxi.comparable hbi with hxb | hbx'
        · have hxv := hmax x hxb ((good_mark hl).mpr ⟨hxg, hbx⟩)
          exact Nat.le_trans (Forest.Le.weight_le (F := T.forest) hw hxv) hfallGood.2
        · exact absurd hbx' hbx
      · have hsurv := hsafe hb (ht.contains_iff.mpr hbt) v hp i (mem_survivors.mpr ⟨hi, hbi⟩)
        rw [← hfall] at hsurv
        exact Nat.le_trans (Forest.Le.weight_le (F := T.forest) hw hxi) hsurv
  · rw [h.stays hinc hbg hbest hvb hout hbt]
    refine iff_of_true ⟨(hgood t).mpr ⟨htg, hbt⟩, fun x hx => hbest x ((hgood x).mp hx).1⟩ ?_
    intro _ hcontains
    exact absurd (ht.contains_iff.mp hcontains) hbt

/-- **When the headers chain has the most work.**  Take a run in which the tips form an
antichain whenever a good header fails.  Then the headers chain has the most work after
every call if and only if every call is safe. -/
theorem always_maxWork_iff (T : BlockIndex ι) (hw : StrictWork T) (failed : ι → Bool)
    (es : List (HeaderEvent ι))
    (hl : Runs.Each (step T) (fun s e => Legal T s e ∧ FrontierIntact T s e)
      (.initial failed) es) :
    Runs.Always (step T) (MaxWork T) (.initial failed) es ↔
      Runs.Each (step T) (WorkSafe T) (.initial failed) es := by
  refine Runs.always_iff_each (I := WorkInv T) ?_ ?_ ?_ es _ (workInv_initial failed) hl
  · exact fun s hs => hs.best
  · rintro s e hs ⟨hle, hintact⟩ hsafe
    cases e with
    | announce b => exact hs.announce hw hle
    | fail b marked =>
      by_cases hb : s.db.failed b = true
      · exact hs.fail_again hw hle hb
      · have hb' : s.db.failed b = false := by simpa using hb
        obtain ⟨s', hstep, hinv, hiff⟩ := hs.fail_iff hw hle (hintact hb') hb'
        exact ⟨s', hstep, { hinv with best := hiff.mpr hsafe }⟩
  · rintro s e s' hs ⟨hle, hintact⟩ hbroken hstep hmax
    cases e with
    | announce b => exact hbroken trivial
    | fail b marked =>
      by_cases hb : s.db.failed b = true
      · refine hbroken fun hb' => ?_
        rw [hb] at hb'
        cases hb'
      · have hb' : s.db.failed b = false := by simpa using hb
        obtain ⟨s₁, hstep₁, -, hiff⟩ := hs.fail_iff hw hle (hintact hb') hb'
        obtain rfl : s' = s₁ := Option.some.inj (hstep.symm.trans hstep₁)
        exact hbroken (hiff.mp hmax)

/-- Two branches on top of genesis: `1`, `2`, `3` and `4`, `5`. -/
def branchTree : BlockIndex (Fin 6) where
  pprev := ![none, some 0, some 1, some 2, some 0, some 4]
  nHeight := ![0, 1, 2, 3, 1, 2]
  nChainWork := ![1, 2, 3, 4, 2, 3]
  pskip := fun _ => none
  height_root := by decide
  height_child := by decide
  skip := by simp

/-- After `2` fails, the chain ends at `1`, and the branch that ends at `5` has more
work. -/
theorem not_always_maxWork_branchTree :
    Runs.Each (step branchTree) (Legal branchTree) (.initial fun _ => false)
        [.announce 0, .announce 1, .announce 2, .announce 3, .announce 4, .announce 5,
          .fail 2 [2, 3]] ∧
      ¬ Runs.Always (step branchTree) (MaxWork branchTree) (.initial fun _ => false)
        [.announce 0, .announce 1, .announce 2, .announce 3, .announce 4, .announce 5,
          .fail 2 [2, 3]] := by
  decide +kernel

/-- A run on one branch, in which the end of the branch fails. -/
theorem always_maxWork_branchTree :
    StrictWork branchTree ∧
      Runs.Each (step branchTree) (fun s e => Legal branchTree s e ∧ FrontierIntact branchTree s e)
        (.initial fun _ => false) [.announce 0, .announce 1, .announce 2, .fail 2 [2]] ∧
      (Runs.Always (step branchTree) (MaxWork branchTree) (.initial fun _ => false)
          [.announce 0, .announce 1, .announce 2, .fail 2 [2]] ↔
        Runs.Each (step branchTree) (WorkSafe branchTree) (.initial fun _ => false)
          [.announce 0, .announce 1, .announce 2, .fail 2 [2]]) :=
  have hw : StrictWork branchTree := by unfold StrictWork; decide
  have hl : Runs.Each (step branchTree)
      (fun s e => Legal branchTree s e ∧ FrontierIntact branchTree s e) (.initial fun _ => false)
      [.announce 0, .announce 1, .announce 2, .fail 2 [2]] := by decide +kernel
  ⟨hw, hl, always_maxWork_iff branchTree hw (fun _ => false) _ hl⟩

/-! ## Orders of announcement -/

/-- A run that announces sound headers. -/
theorem foldlM_announce (hw : StrictWork T) : ∀ (l : List ι) (s : HeaderState ι), WorkInv T s →
    T.forest.Incomparable s.db.headerChainTips → (∀ b ∈ l, Sound T s.db.failed b) →
    ∃ s', (l.map .announce).foldlM (step T) s = some s' ∧ WorkInv T s' ∧
      T.forest.Incomparable s'.db.headerChainTips ∧ s'.db.failed = s.db.failed ∧
      s'.announced = l.reverse ++ s.announced := by
  intro l
  induction l with
  | nil =>
    intro s hs hinc _
    exact ⟨s, rfl, hs, hinc, rfl, rfl⟩
  | cons b l ih =>
    intro s hs hinc hsound
    have hb : Legal T s (.announce b) := hsound b (by simp)
    obtain ⟨s₁, hstep, hann, hfailed, hout, -⟩ := hs.toInv.announce hb
    obtain ⟨s₂, hstep', hs₂⟩ := hs.announce hw hb
    obtain rfl : s₁ = s₂ := Option.some.inj (hstep.symm.trans hstep')
    obtain ⟨s', hrun, hs', hinc', hfailed', hann'⟩ := ih s₁ hs₂ (hout.incomparable hinc)
      (fun x hx => by rw [hfailed]; exact hsound x (by simp [hx]))
    refine ⟨s', ?_, hs', hinc', hfailed'.trans hfailed, ?_⟩
    · rw [List.map_cons, List.foldlM_cons, hstep]
      exact hrun
    · rw [hann', hann, List.reverse_cons, List.append_assoc]
      rfl

omit [DecidableEq ι] in
/-- A set that is closed under parents is closed under ancestors. -/
theorem mem_of_le {S : Finset ι} (hS : ∀ b ∈ S, ∀ p, T.pprev b = some p → p ∈ S) {a b : ι}
    (hb : b ∈ S) (h : T.forest.Le a b) : a ∈ S :=
  h.induction (P := (· ∈ S)) (fun c p hp hc => hS c hc p hp) hb

/-- **The order of announcement does not matter.**  Let `S` be a finite set of valid
headers that is closed under parents.  Any two orders of announcing them lead to the
same tips, and to chains with the same work. -/
theorem announce_order (T : BlockIndex ι) (hw : StrictWork T) (failed : ι → Bool) (S : Finset ι)
    (hvalid : ∀ b ∈ S, failed b = false) (hclosed : ∀ b ∈ S, ∀ p, T.pprev b = some p → p ∈ S)
    (l₁ l₂ : List ι) (h₁ : ∀ b, b ∈ l₁ ↔ b ∈ S) (h₂ : ∀ b, b ∈ l₂ ↔ b ∈ S) :
    ∃ s₁ s₂, (l₁.map .announce).foldlM (step T) (.initial failed) = some s₁ ∧
      (l₂.map .announce).foldlM (step T) (.initial failed) = some s₂ ∧
      s₁.db.headerChainTips.Perm s₂.db.headerChainTips ∧
      s₁.db.headersChain.tip.map T.nChainWork = s₂.db.headersChain.tip.map T.nChainWork := by
  have hsound : ∀ b ∈ S, Sound T failed b := fun b hb y hy => hvalid y (mem_of_le hclosed hb hy)
  have hrun : ∀ l : List ι, (∀ b, b ∈ l ↔ b ∈ S) →
      ∃ s, (l.map .announce).foldlM (step T) (.initial failed) = some s ∧ WorkInv T s ∧
        s.announced = l.reverse ∧ (∀ x, Good T s.db.failed s.announced x ↔ x ∈ S) ∧
        T.forest.IsFrontier (· ∈ S) s.db.headerChainTips := by
    intro l hl
    obtain ⟨s, hs, hinv, hinc, hfailed, hann⟩ := foldlM_announce hw l (.initial failed)
      (workInv_initial failed) (frontierInv_initial failed).incomparable
      (fun b hb => hsound b ((hl b).mp hb))
    rw [HeaderState.initial, List.append_nil] at hann
    have hgood : ∀ x, Good T s.db.failed s.announced x ↔ x ∈ S := by
      intro x
      rw [hfailed, hann]
      constructor
      · rintro ⟨⟨a, ha, hxa⟩, -⟩
        exact mem_of_le hclosed ((hl a).mp (List.mem_reverse.mp ha)) hxa
      · intro hx
        exact ⟨known_of_mem (List.mem_reverse.mpr ((hl x).mpr hx)), hsound x hx⟩
    refine ⟨s, hs, hinv, hann, hgood, hinc, ?_, ?_⟩
    · exact fun x hx => (hgood x).mp (hinv.sub x hx)
    · exact fun x hx => hinv.covers x ((hgood x).mpr hx)
  obtain ⟨s₁, hs₁, hinv₁, hann₁, hgood₁, hfront₁⟩ := hrun l₁ h₁
  obtain ⟨s₂, hs₂, hinv₂, hann₂, hgood₂, hfront₂⟩ := hrun l₂ h₂
  refine ⟨s₁, s₂, hs₁, hs₂, hfront₁.perm hfront₂, ?_⟩
  rcases S.eq_empty_or_nonempty with rfl | ⟨x, hx⟩
  · -- nothing is announced, and there is no chain
    have hnil : ∀ l : List ι, (∀ b, b ∈ l ↔ b ∈ (∅ : Finset ι)) → l = [] := by
      intro l hl
      exact List.eq_nil_iff_forall_not_mem.mpr fun b hb => by simpa using (hl b).mp hb
    obtain rfl := hnil l₁ h₁
    obtain rfl := hnil l₂ h₂
    obtain rfl : s₁ = s₂ := Option.some.inj (hs₁.symm.trans hs₂)
    rfl
  · have hne : ∀ l : List ι, (∀ b, b ∈ l ↔ b ∈ S) → l.reverse ≠ [] := by
      intro l hl hnil
      have hmem := List.mem_reverse.mpr ((hl x).mpr hx)
      rw [hnil] at hmem
      cases hmem
    obtain ⟨t₁, ht₁, hg₁, hmax₁⟩ := hinv₁.best (by rw [hann₁]; exact hne l₁ h₁)
    obtain ⟨t₂, ht₂, hg₂, hmax₂⟩ := hinv₂.best (by rw [hann₂]; exact hne l₂ h₂)
    rw [ht₁, ht₂, Option.map_some, Option.map_some]
    have h12 := hmax₂ t₁ ((hgood₂ t₁).mpr ((hgood₁ t₁).mp hg₁))
    have h21 := hmax₁ t₂ ((hgood₁ t₂).mpr ((hgood₂ t₂).mp hg₂))
    exact congrArg some (Nat.le_antisymm h12 h21)

/-- Both branches, from the root up and in an order that announces children first. -/
theorem announce_order_branchTree :
    ∃ s₁ s₂, ([0, 1, 2, 3, 4, 5].map HeaderEvent.announce).foldlM (step branchTree)
        (.initial fun _ => false) = some s₁ ∧
      ([3, 5, 0, 4, 2, 1].map HeaderEvent.announce).foldlM (step branchTree)
        (.initial fun _ => false) = some s₂ ∧
      s₁.db.headerChainTips.Perm s₂.db.headerChainTips ∧
      s₁.db.headersChain.tip.map branchTree.nChainWork
        = s₂.db.headersChain.tip.map branchTree.nChainWork :=
  announce_order branchTree (by unfold StrictWork; decide) (fun _ => false) Finset.univ
    (by decide) (by decide) _ _ (by decide) (by decide)

end Blocks
