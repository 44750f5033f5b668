/-
# The header tips as a frontier

`headerChainTips` is meant to list the ends of all chains of headers that have no failed
block in them.  When the failed header is itself a tip, `appendHeader` puts its parent in
its place without looking for another tip above the parent, and from then on the list
has a tip that is an ancestor of another.

`always_exactFrontier_iff` says that this is the only way to lose the frontier: it
is exact along a run if and only if no header fails that is a tip while another tip
descends from its parent.
-/
import Hub.HeaderRuns
import Mathlib.Data.Fin.VecNotation

namespace Blocks

variable {ι : Type} [DecidableEq ι] {T : BlockIndex ι} {s s' : HeaderState ι} {b : ι}
  {marked : List ι}

/-- The tips are distinct, none is an ancestor of another, none has failed, and every
announced header without a failed block on its path is at or below one. -/
structure ExactFrontier (T : BlockIndex ι) (s : HeaderState ι) : Prop where
  nodup : s.db.headerChainTips.Nodup
  antichain : ∀ x ∈ s.db.headerChainTips, ∀ y ∈ s.db.headerChainTips, T.forest.Le x y → x = y
  unfailed : ∀ x ∈ s.db.headerChainTips, s.db.failed x = false
  covers : ∀ a ∈ s.announced, Sound T s.db.failed a → ∃ t ∈ s.db.headerChainTips, T.forest.Le a t

instance [Fintype ι] : Decidable (ExactFrontier T s) :=
  decidable_of_iff (s.db.headerChainTips.Nodup ∧
      (∀ x ∈ s.db.headerChainTips, ∀ y ∈ s.db.headerChainTips, T.forest.Le x y → x = y) ∧
      (∀ x ∈ s.db.headerChainTips, s.db.failed x = false) ∧
      ∀ a ∈ s.announced, Sound T s.db.failed a → ∃ t ∈ s.db.headerChainTips, T.forest.Le a t)
    ⟨fun ⟨h1, h2, h3, h4⟩ => ⟨h1, h2, h3, h4⟩, fun ⟨h1, h2, h3, h4⟩ => ⟨h1, h2, h3, h4⟩⟩

/-- If a good header fails that is a tip, then no other tip descends from its parent. -/
def FrontierSafe (T : BlockIndex ι) (s : HeaderState ι) : HeaderEvent ι → Prop
  | .announce _ => True
  | .fail b _ => s.db.failed b = false → b ∈ s.db.headerChainTips →
      ∀ p, T.pprev b = some p → ∀ t ∈ s.db.headerChainTips, T.forest.Le p t → t = b

/-- The tips are the frontier of the good headers. -/
structure FrontierInv (T : BlockIndex ι) (s : HeaderState ι) : Prop extends Inv T s where
  incomparable : T.forest.Incomparable s.db.headerChainTips

omit [DecidableEq ι] in
theorem FrontierInv.exactFrontier (h : FrontierInv T s) : ExactFrontier T s where
  nodup := h.incomparable.nodup
  antichain := fun _ hx _ hy => h.incomparable.eq_of_le hx hy
  unfailed := fun x hx => (h.flags.good_iff.mp (h.sub x hx)).2
  covers := fun _ ha hs => h.covers _ ⟨known_of_mem ha, hs⟩

omit [DecidableEq ι] in
theorem frontierInv_initial (failed : ι → Bool) : FrontierInv T (HeaderState.initial failed) :=
  { inv_initial failed with
    incomparable := ⟨List.nodup_nil, fun hx => absurd hx List.not_mem_nil⟩ }

/-- A valid header keeps the tips apart. -/
theorem AnnounceOutcome.incomparable {db db' : DB ι} (h : AnnounceOutcome T db b db')
    (hinc : T.forest.Incomparable db.headerChainTips) :
    T.forest.Incomparable db'.headerChainTips := by
  cases h with
  | known htips _ _ =>
    rw [htips]
    exact hinc
  | added htips hfork _ =>
    rw [htips]
    refine (Forest.incomparable_append_singleton
      (hinc.sublist List.eraseP_sublist)).mpr fun x hx => ?_
    have hxb := not_le_of_mem_eraseP hinc hx
    have hmem := List.mem_of_mem_eraseP hx
    refine ⟨hxb, fun hbx => ?_⟩
    rcases hfork with ⟨i, hi, hib⟩ | hnone
    · obtain rfl := hinc.eq_of_le hi hmem (hib.trans hbx)
      exact hxb hib
    · exact hnone x hmem hbx

theorem FrontierInv.announce (h : FrontierInv T s) (hl : Legal T s (.announce b)) :
    ∃ s', step T s (.announce b) = some s' ∧ FrontierInv T s' := by
  obtain ⟨s', hstep, -, -, hout, hinv⟩ := h.toInv.announce hl
  exact ⟨s', hstep, { hinv with incomparable := hout.incomparable h.incomparable }⟩

/-- A failed header keeps the tips apart if it is safe. -/
theorem FrontierInv.fail (h : FrontierInv T s) (hl : Legal T s (.fail b marked))
    (hsafe : FrontierSafe T s (.fail b marked)) :
    ∃ s', step T s (.fail b marked) = some s' ∧ FrontierInv T s' := by
  have hinc := h.incomparable
  obtain ⟨s', p, v, t, t', hstep, -, -, hp, -, -, hvp, -, hmax, hout, hinv⟩ :=
    h.toInv.fail hl fun _ => hinc
  refine ⟨s', hstep, { hinv with incomparable := ?_ }⟩
  have hvb : T.forest.Le v b := hvp.trans (Forest.Le.of_parent hp)
  cases hout with
  | @replaced tip hfind htips _ =>
    rw [htips]
    refine (Forest.incomparable_append_singleton
      (hinc.sublist List.eraseP_sublist)).mpr fun x hx => ?_
    have hxb := not_le_of_mem_eraseP hinc hx
    have hmem := List.mem_of_mem_eraseP hx
    have htip := List.mem_of_find?_eq_some hfind
    have htb : T.forest.Le tip b := by simpa using List.find?_some hfind
    refine ⟨fun hxv => hxb (hxv.trans hvb), fun hvx => ?_⟩
    by_cases hbf : s.db.failed b = true
    · -- the tip that is replaced is below `v`, and so below `x`
      have hbt : ¬ T.forest.Le b tip := by
        intro hbt
        obtain rfl := htb.antisymm hbt
        rw [(h.flags.good_iff.mp (h.sub tip htip)).2] at hbf
        cases hbf
      have htv := hmax tip htb ((good_mark hl).mpr ⟨h.sub tip htip, hbt⟩)
      obtain rfl := hinc.eq_of_le htip hmem (htv.trans hvx)
      exact hxb htb
    · have hbf' : s.db.failed b = false := by simpa using hbf
      have hbg := h.flags.good_iff.mpr ⟨known_of_mem hl.1, hbf'⟩
      obtain rfl := h.toInv.tip_eq_of_le hinc hbg htip htb
      obtain rfl := validPrev_eq_parent h.flags hl hp hbf' hvp hmax
      exact hxb ((hsafe hbf' htip v hp x hmem hvx) ▸ Forest.Le.refl _)
  | pruned hnone htips _ _ =>
    have hsub : (survivors T b s.db.headerChainTips).Sublist s.db.headerChainTips :=
      List.filter_sublist
    rw [htips]
    split
    · rename_i hadd
      refine (Forest.incomparable_append_singleton (hinc.sublist hsub)).mpr fun x hx => ?_
      exact ⟨fun hxv => hnone x (hsub.subset hx) (hxv.trans hvb), fun hvx => hadd.2 ⟨x, hx, hvx⟩⟩
    · rw [List.append_nil]
      exact hinc.sublist hsub

/-- An unsafe step puts the parent of the failed header below another tip. -/
theorem FrontierInv.not_exactFrontier (h : FrontierInv T s) (hl : Legal T s (.fail b marked))
    (hbroken : ¬ FrontierSafe T s (.fail b marked))
    (hstep : step T s (.fail b marked) = some s') : ¬ ExactFrontier T s' := by
  have hinc := h.incomparable
  obtain ⟨s₁, p, v, t, t', hstep₁, -, -, hp, -, -, hvp, -, hmax, hout, -⟩ :=
    h.toInv.fail hl fun _ => hinc
  obtain rfl : s' = s₁ := Option.some.inj (hstep.symm.trans hstep₁)
  unfold FrontierSafe at hbroken
  push Not at hbroken
  obtain ⟨hbf, hb, q, hq, x, hx, hqx, hxb⟩ := hbroken
  obtain rfl : p = q := Option.some.inj (hp.symm.trans hq)
  obtain rfl := validPrev_eq_parent h.flags hl hp hbf hvp hmax
  have hvb : T.forest.Le v b := Forest.Le.of_parent hp
  have hxnb : ¬ T.forest.Le x b := fun hle => hxb (hinc.eq_of_le hx hb hle)
  cases hout with
  | replaced hfind htips _ =>
    intro hexact
    have hxmem : x ∈ s'.db.headerChainTips := by
      rw [htips]
      exact List.mem_append_left _ ((List.mem_eraseP_of_neg (by simpa using hxnb)).mpr hx)
    have hvmem : v ∈ s'.db.headerChainTips := by
      rw [htips]
      simp
    obtain rfl := hexact.antichain v hvmem x hxmem hqx
    exact hxnb hvb
  | pruned hnone _ _ _ => exact absurd (Forest.Le.refl b) (hnone b hb)

/-- **When the tips are an exact frontier.**  Along a run of announcements the tips are
an exact frontier after every call if and only if every call is safe. -/
theorem always_exactFrontier_iff (T : BlockIndex ι) (failed : ι → Bool)
    (es : List (HeaderEvent ι)) (hl : Runs.Each (step T) (Legal T) (.initial failed) es) :
    Runs.Always (step T) (ExactFrontier T) (.initial failed) es ↔
      Runs.Each (step T) (FrontierSafe T) (.initial failed) es := by
  refine Runs.always_iff_each (I := FrontierInv T) ?_ ?_ ?_ es _ (frontierInv_initial failed) hl
  · exact fun s hs => hs.exactFrontier
  · intro s e hs hle hsafe
    cases e with
    | announce b => exact hs.announce hle
    | fail b marked => exact hs.fail hle hsafe
  · intro s e s' hs hle hbroken hstep
    cases e with
    | announce b => exact absurd trivial hbroken
    | fail b marked => exact hs.not_exactFrontier hle hbroken hstep

/-- Two blocks `1` and `2` on top of genesis. -/
def forkTree : BlockIndex (Fin 3) where
  pprev := ![none, some 0, some 0]
  nHeight := ![0, 1, 1]
  nChainWork := ![1, 2, 3]
  pskip := fun _ => none
  height_root := by decide
  height_child := by decide
  skip := by simp

/-- After `1` fails, the tips are `2` and its parent. -/
theorem not_always_exactFrontier_forkTree :
    Runs.Each (step forkTree) (Legal forkTree) (.initial fun _ => false)
        [.announce 0, .announce 1, .announce 2, .fail 1 [1]] ∧
      ¬ Runs.Always (step forkTree) (ExactFrontier forkTree) (.initial fun _ => false)
        [.announce 0, .announce 1, .announce 2, .fail 1 [1]] := by
  decide

/-- A run with one branch, the end of which fails. -/
theorem always_exactFrontier_forkTree :
    Runs.Each (step forkTree) (Legal forkTree) (.initial fun _ => false)
        [.announce 0, .announce 1, .fail 1 [1], .announce 2] ∧
      (Runs.Always (step forkTree) (ExactFrontier forkTree) (.initial fun _ => false)
          [.announce 0, .announce 1, .fail 1 [1], .announce 2] ↔
        Runs.Each (step forkTree) (FrontierSafe forkTree) (.initial fun _ => false)
          [.announce 0, .announce 1, .fail 1 [1], .announce 2]) :=
  ⟨by decide, always_exactFrontier_iff forkTree (fun _ => false) _ (by decide)⟩

end Blocks
