/-
# The limits of the memory pool

`CalculateMemPoolAncestors` (`libs/server/txmempool.cpp`) refuses an entry with too many ancestors, or
with an ancestor that has too many descendants.  `MemPoolLinks` has it without limits, as a plain walk
along the links; here the walk stops at the first limit that is passed.

* `calculateMemPoolAncestors_iff`, `verdict_of_run` : it refuses exactly the entries that break a limit;
* `bounded_of_run` : when every transaction that is inserted was let in, the limits hold for every
  transaction of the pool in every state.
-/
import Hub.MemPoolPackages

/-- The limits are 63-bit numbers: they come from signed arguments. -/
structure AncestorLimits.Fits (lim : AncestorLimits) : Prop where
  ancestorCount : lim.ancestorCount < 2 ^ 63
  ancestorSize : lim.ancestorSize < 2 ^ 63
  descendantCount : lim.descendantCount < 2 ^ 63
  descendantSize : lim.descendantSize < 2 ^ 63

namespace CTxMemPool

/-- The sizes and the totals of the entries are 63-bit numbers. -/
structure Fits (s : CTxMemPool) : Prop where
  size : ∀ {a e}, s.mapTx.lookup a = some e → e.nTxSize < 2 ^ 63
  descendantSize : ∀ {a e}, s.mapTx.lookup a = some e →
    0 ≤ e.nSizeWithDescendants ∧ e.nSizeWithDescendants < 2 ^ 63
  descendantCount : ∀ {a e}, s.mapTx.lookup a = some e →
    0 ≤ e.nCountWithDescendants ∧ e.nCountWithDescendants < 2 ^ 63

/-- The totals of the ancestor `a` leave room for the entry. -/
def LeavesRoom (s : CTxMemPool) (lim : AncestorLimits) (entry : CTxMemPoolEntry) (a : Uint256) :
    Prop :=
  ∀ e, s.mapTx.lookup a = some e →
    e.nSizeWithDescendants + entry.nTxSize ≤ lim.descendantSize ∧
    e.nCountWithDescendants + 1 ≤ lim.descendantCount

/-- An entry with the ancestors `A` breaks no limit. -/
structure Meets (s : CTxMemPool) (lim : AncestorLimits) (entry : CTxMemPoolEntry)
    (A : SetEntries) : Prop where
  count : A ≠ [] → A.length + 1 ≤ lim.ancestorCount
  size : A ≠ [] → entry.nTxSize + (A.map s.sizeAt).sum ≤ lim.ancestorSize
  room : ∀ a ∈ A, s.LeavesRoom lim entry a

variable {s s' : CTxMemPool} {lim : AncestorLimits} {entry : CTxMemPoolEntry}

/-! ## The walk -/

/-- A refusal is not the answer that everything is within the limits. -/
theorem refused_iff {ε : Type} {err : ε} {p : Prop} (h : ¬ p) : some err = none ↔ p :=
  iff_of_false (Option.some_ne_none err) h

theorem refused_elim {ε : Type} {err : ε} {p : Prop} (h : some err = none) : p :=
  absurd h (Option.some_ne_none err)

theorem exceeds_eq_false_iff {n : ℤ} (limit : ℕ) (h0 : 0 ≤ n) (h : n < 2 ^ 64) :
    exceeds n limit = false ↔ n ≤ limit := by
  rw [exceeds, decide_eq_false_iff_not, Int.emod_eq_of_lt h0 h, not_lt]

/-- The sizes of more entries are not less. -/
theorem sum_sizeAt_le {l l' : SetEntries} (h : l <:+ l') :
    (l.map s.sizeAt).sum ≤ (l'.map s.sizeAt).sum := by
  obtain ⟨front, rfl⟩ := h
  have hfront : 0 ≤ (front.map s.sizeAt).sum := by
    refine List.sum_nonneg fun n hn => ?_
    obtain ⟨a, -, rfl⟩ := List.mem_map.mp hn
    exact s.sizeAt_nonneg a
  rw [List.map_append, List.sum_append]
  omega

theorem stageParents_iff (hlim : lim.Fits) (anc : SetEntries) : ∀ (ps stage : List Uint256),
    stage.length + anc.length + 1 ≤ lim.ancestorCount →
    ∃ err stage', stageParents lim anc ps stage = (err, stage') ∧
      (err = none ↔ (Worklist.push anc stage ps).length + anc.length + 1 ≤ lim.ancestorCount) ∧
      (err = none → stage' = Worklist.push anc stage ps) := by
  intro ps
  induction ps with
  | nil =>
    intro stage hstage
    exact ⟨none, stage, rfl, iff_of_true rfl hstage, fun _ => rfl⟩
  | cons p ps ih =>
    intro stage hstage
    obtain ⟨stage₁, h₁⟩ : ∃ stage₁, stage₁ = if p ∈ anc then stage else stage.insert p := ⟨_, rfl⟩
    have hpush : Worklist.push anc stage (p :: ps) = Worklist.push anc stage₁ ps := by
      rw [h₁]
      rfl
    have hlen : stage₁.length ≤ stage.length + 1 := by
      rw [h₁]
      split_ifs with hp
      · exact Nat.le_succ _
      · rw [List.length_insert]
        split_ifs
        · exact Nat.le_succ _
        · exact Nat.le_refl _
    have hcount := hlim.ancestorCount
    have hexceeds := exceeds_eq_false_iff (n := (stage₁.length : ℤ) + anc.length + 1)
        lim.ancestorCount (by omega) (by omega)
    rw [stageParents, ← h₁]
    cases hex : exceeds ((stage₁.length : ℤ) + anc.length + 1) lim.ancestorCount with
    | true =>
      -- the staged entries only become more
      have hle := (Worklist.suffix_push anc ps stage₁).length_le
      rw [hex] at hexceeds
      refine ⟨_, stage₁, if_pos rfl, refused_iff ?_, refused_elim⟩
      rw [hpush]
      intro hmeets
      exact absurd (hexceeds.mpr (by omega)) Bool.true_eq_false.mp
    | false =>
      obtain ⟨err, stage', hrun, hiff, heq⟩ := ih stage₁ (by have := hexceeds.mp hex; omega)
      rw [hpush]
      exact ⟨err, stage', (if_neg Bool.false_ne_true).trans hrun, hiff, heq⟩

/-- Where the walk stands: the entries before it and behind it, and their size. -/
structure Walking (s : CTxMemPool) (lim : AncestorLimits) (entry : CTxMemPoolEntry)
    (stage anc : SetEntries) (total : ℤ) : Prop where
  nodup : (stage ++ anc).Nodup
  hasTx : ∀ x ∈ stage, s.hasTx x = true
  sum : total = entry.nTxSize + (anc.map s.sizeAt).sum
  small : total < 2 ^ 63
  count : stage ≠ [] → stage.length + anc.length + 1 ≤ lim.ancestorCount

/-- No entry is staged twice, or behind the walk. -/
theorem nodup_next {it : Uint256} {stage anc : SetEntries} (h : (it :: stage ++ anc).Nodup)
    (parents : SetEntries) :
    (Worklist.push (it :: anc) stage parents ++ it :: anc).Nodup := by
  obtain ⟨hstage, hanc, hdisjoint⟩ := List.nodup_append.mp h
  obtain ⟨hit, hstage⟩ := List.nodup_cons.mp hstage
  refine List.nodup_append.mpr ⟨Worklist.nodup_push _ _ hstage, List.nodup_cons.mpr ⟨?_, hanc⟩, ?_⟩
  · intro hmem
    exact hdisjoint it List.mem_cons_self it hmem rfl
  · rintro x hx y hy rfl
    rcases Worklist.mem_push.mp hx with hstaged | ⟨-, hnew⟩
    · rcases List.mem_cons.mp hy with rfl | hanc
      · exact hit hstaged
      · exact hdisjoint x (List.mem_cons_of_mem it hstaged) x hanc rfl
    · exact hnew hy

/-- The walk goes on from an entry to its parents. -/
theorem Walking.next {it : Uint256} {stage anc parents : SetEntries} {total : ℤ}
    (h : s.Walking lim entry (it :: stage) anc total)
    (hparents : ∀ y ∈ parents, s.hasTx y = true)
    (hsmall : total + s.sizeAt it < 2 ^ 63)
    (hcount : (Worklist.push (it :: anc) stage parents).length + (it :: anc).length + 1
      ≤ lim.ancestorCount) :
    s.Walking lim entry (Worklist.push (it :: anc) stage parents) (it :: anc)
      (total + s.sizeAt it) := by
  refine ⟨nodup_next h.nodup parents, fun x hx => ?_, ?_, hsmall, fun _ => hcount⟩
  · rcases Worklist.mem_push.mp hx with hx | ⟨hx, -⟩
    · exact h.hasTx x (List.mem_cons_of_mem it hx)
    · exact hparents x hx
  · rw [h.sum, List.map_cons, List.sum_cons]
    omega

/-- **The loop.**  It goes to the end exactly when all that is before it keeps to the limits. -/
theorem walkAncestors_iff (hs : Graph s) (hfits : s.Fits) (hlim : lim.Fits)
    (hentry : entry.nTxSize < 2 ^ 63) : ∀ (fuel : ℕ) (total : ℤ) (stage anc A : SetEntries),
    Worklist.run s.getMemPoolParents fuel stage anc = some A →
    s.Walking lim entry stage anc total →
    ∃ err B, s.walkAncestors entry lim fuel total stage anc = some (err, B) ∧
      (err = none → B = A) ∧
      (err = none ↔ (stage ≠ [] → A.length + 1 ≤ lim.ancestorCount ∧
          entry.nTxSize + (A.map s.sizeAt).sum ≤ lim.ancestorSize) ∧
        ∀ a ∈ A, a ∉ anc → s.LeavesRoom lim entry a) := by
  intro fuel
  induction fuel with
  | zero =>
    intro total stage anc A hrun h
    cases stage with
    | nil =>
      obtain rfl := Option.some.inj hrun
      exact ⟨none, anc, rfl, fun _ => rfl, iff_of_true rfl
        ⟨fun hne => absurd rfl hne, fun a ha hna => absurd ha hna⟩⟩
    | cons it stage => cases hrun
  | succ fuel ih =>
    intro total stage anc A hrun h
    cases stage with
    | nil =>
      obtain rfl := Option.some.inj hrun
      exact ⟨none, anc, rfl, fun _ => rfl, iff_of_true rfl
        ⟨fun hne => absurd rfl hne, fun a ha hna => absurd ha hna⟩⟩
    | cons it stage =>
      have hit : it ∉ anc := fun hmem =>
        (List.nodup_append.mp h.nodup).2.2 it List.mem_cons_self it hmem rfl
      have hinsert : anc.insert it = it :: anc := List.insert_of_not_mem hit
      obtain ⟨parents, hparents, hrun⟩ := Option.bind_eq_some_iff.mp hrun
      rw [hinsert] at hrun
      obtain ⟨e, he⟩ := hasTx_iff_lookup.mp (h.hasTx it List.mem_cons_self)
      have hsize : s.sizeAt it = e.nTxSize := sizeAt_of_lookup he
      have hsuffix : it :: anc <:+ A := Worklist.suffix_run hrun
      have hmem : it ∈ A := hsuffix.subset List.mem_cons_self
      -- the three comparisons
      have hdsize := hfits.descendantSize he
      have hdcount := hfits.descendantCount he
      have hesize := hfits.size he
      have htotal0 : 0 ≤ total := by
        have hnonneg := sum_sizeAt_le (s := s) (List.nil_suffix (l := anc))
        rw [List.map_nil, List.sum_nil] at hnonneg
        rw [h.sum]
        omega
      have hsmall := h.small
      have hexSize := exceeds_eq_false_iff (n := e.nSizeWithDescendants + entry.nTxSize)
        lim.descendantSize (by omega) (by omega)
      have hexCount := exceeds_eq_false_iff (n := e.nCountWithDescendants + 1)
        lim.descendantCount (by omega) (by omega)
      have hexTotal := exceeds_eq_false_iff (n := total + e.nTxSize)
        lim.ancestorSize (by omega) (by omega)
      have hroom : s.LeavesRoom lim entry it ↔
          exceeds (e.nSizeWithDescendants + entry.nTxSize) lim.descendantSize = false ∧
            exceeds (e.nCountWithDescendants + 1) lim.descendantCount = false := by
        rw [hexSize, hexCount]
        constructor
        · intro hleaves
          exact hleaves e he
        · intro hboth e' he'
          obtain rfl := Option.some.inj (he.symm.trans he')
          exact hboth
      rw [walkAncestors, hinsert]
      simp only [he, Option.bind_eq_bind, Option.bind_some, hparents]
      cases hd : exceeds (e.nSizeWithDescendants + entry.nTxSize) lim.descendantSize with
      | true =>
        rw [hd] at hroom
        exact ⟨_, _, if_pos rfl, refused_elim, refused_iff fun hall =>
          Bool.true_eq_false.mp (hroom.mp (hall.2 it hmem hit)).1⟩
      | false =>
        rw [if_neg Bool.false_ne_true]
        cases hc : exceeds (e.nCountWithDescendants + 1) lim.descendantCount with
        | true =>
          rw [hc] at hroom
          exact ⟨_, _, if_pos rfl, refused_elim, refused_iff fun hall =>
            Bool.true_eq_false.mp (hroom.mp (hall.2 it hmem hit)).2⟩
        | false =>
          rw [if_neg Bool.false_ne_true]
          have hleaves := hroom.mpr ⟨hd, hc⟩
          have hsum := sum_sizeAt_le (s := s) hsuffix
          rw [List.map_cons, List.sum_cons, hsize] at hsum
          cases ht : exceeds (total + e.nTxSize) lim.ancestorSize with
          | true =>
            rw [ht] at hexTotal
            refine ⟨_, _, if_pos rfl, refused_elim, refused_iff fun hall => ?_⟩
            have hle := (hall.1 (List.cons_ne_nil it stage)).2
            have heq := h.sum
            exact Bool.true_eq_false.mp (hexTotal.mpr (by omega))
          | false =>
            rw [if_neg Bool.false_ne_true]
            have hle := hexTotal.mp ht
            have hlimSize := hlim.ancestorSize
            have hlen := h.count (List.cons_ne_nil it stage)
            rw [List.length_cons] at hlen
            -- everything that is staged comes to be an ancestor
            have hnodup := nodup_next h.nodup parents
            have hA := (hnodup.subperm (List.append_subset.mpr
              ⟨Worklist.stage_subset_of_run hrun, hsuffix.subset⟩)).length_le
            rw [List.length_append] at hA
            obtain ⟨err, stage', hstage, hiff, heq⟩ := stageParents_iff hlim (it :: anc) parents stage
              (by rw [List.length_cons]; omega)
            rw [hstage]
            cases err with
            | some err =>
              refine ⟨_, _, rfl, refused_elim, refused_iff fun hall => ?_⟩
              have hcount := (hall.1 (List.cons_ne_nil it stage)).1
              exact absurd (hiff.mpr (by omega)) (Option.some_ne_none err)
            | none =>
              obtain rfl := heq rfl
              have hcount := hiff.mp rfl
              have hnext := h.next (fun y hy => ?_) (by rw [hsize]; omega) hcount
              · rw [hsize] at hnext
                obtain ⟨err, B, hwalk, hB, hverdict⟩ := ih _ _ _ A hrun hnext
                refine ⟨err, B, hwalk, hB, hverdict.trans ?_⟩
                constructor
                · rintro ⟨hrest, hrooms⟩
                  refine ⟨fun _ => ?_, fun a ha hna => ?_⟩
                  · by_cases hend : Worklist.push (it :: anc) stage parents = []
                    · -- this was the last entry
                      rw [hend] at hrun hcount
                      rw [Worklist.run_nil] at hrun
                      obtain rfl := Option.some.inj hrun
                      rw [List.length_nil] at hcount
                      have heq := h.sum
                      rw [List.map_cons, List.sum_cons, hsize]
                      exact ⟨by omega, by omega⟩
                    · exact hrest hend
                  · by_cases hait : a = it
                    · rw [hait]
                      exact hleaves
                    · exact hrooms a ha (List.not_mem_cons_of_ne_of_not_mem hait hna)
                · rintro ⟨hrest, hrooms⟩
                  exact ⟨fun _ => hrest (List.cons_ne_nil it stage), fun a ha hna =>
                    hrooms a ha fun hmem => hna (List.mem_cons_of_mem it hmem)⟩
              · rw [getMemPoolParents_of_hasTx hs.keys (h.hasTx it List.mem_cons_self)] at hparents
                obtain rfl := Option.some.inj hparents
                exact hs.parents_hasTx hy

/-! ## The parents -/

/-- The parents only become more. -/
theorem length_le_of_searchParents (s : CTxMemPool) : ∀ (os : List COutPoint) {l r : SetEntries},
    s.searchParents noLimits os l = (none, r) → l.length ≤ r.length := by
  intro os
  induction os with
  | nil =>
    intro l r h
    obtain rfl : l = r := (Prod.mk.inj h).2
    exact Nat.le_refl _
  | cons o os ih =>
    intro l r h
    rw [searchParents] at h
    by_cases ho : s.hasTx o.hash = true
    · simp only [ho, if_true, noLimits, exceeds_noLimit, Bool.false_eq_true, if_false] at h
      refine Nat.le_trans ?_ (ih h)
      rw [List.length_insert]
      exact Nat.le_add_right _ _
    · rw [if_neg ho] at h
      exact ih h

theorem searchParents_iff (hlim : lim.Fits) (s : CTxMemPool) : ∀ (os : List COutPoint)
    (l r : SetEntries), (l ≠ [] → l.length + 1 ≤ lim.ancestorCount) →
    s.searchParents noLimits os l = (none, r) →
    ∃ err r', s.searchParents lim os l = (err, r') ∧
      (err = none ↔ (r ≠ [] → r.length + 1 ≤ lim.ancestorCount)) ∧ (err = none → r' = r) := by
  intro os
  induction os with
  | nil =>
    intro l r hl h
    obtain rfl : l = r := (Prod.mk.inj h).2
    exact ⟨none, l, rfl, iff_of_true rfl hl, fun _ => rfl⟩
  | cons o os ih =>
    intro l r hl h
    rw [searchParents] at h ⊢
    by_cases ho : s.hasTx o.hash = true
    · simp only [ho, if_true, noLimits, exceeds_noLimit, Bool.false_eq_true, if_false] at h ⊢
      have hlen : (l.insert o.hash).length ≤ l.length + 1 := by
        rw [List.length_insert]
        split_ifs
        all_goals omega
      have hcount := hlim.ancestorCount
      have hl' : l.length ≤ lim.ancestorCount := by
        by_cases hnil : l = []
        · rw [hnil]
          exact Nat.zero_le _
        · exact Nat.le_of_succ_le (hl hnil)
      have hexceeds := exceeds_eq_false_iff (n := ((l.insert o.hash).length : ℤ) + 1)
        lim.ancestorCount (by omega) (by omega)
      cases hex : exceeds (((l.insert o.hash).length : ℤ) + 1) lim.ancestorCount with
      | true =>
        rw [hex] at hexceeds
        have hle := length_le_of_searchParents s os h
        have hmem : 0 < (l.insert o.hash).length := List.length_pos_of_mem List.mem_insert_self
        refine ⟨_, _, if_pos rfl, refused_iff fun hall => ?_, refused_elim⟩
        have hr := hall (List.ne_nil_of_length_pos (Nat.lt_of_lt_of_le hmem hle))
        exact Bool.true_eq_false.mp (hexceeds.mpr (by omega))
      | false =>
        rw [if_neg Bool.false_ne_true]
        exact ih _ r (fun _ => by have := hexceeds.mp hex; omega) h
    · rw [if_neg ho] at h ⊢
      exact ih l r hl h

/-- **The verdict.**  An entry is refused exactly when it breaks one of the limits, and otherwise the
answer is the set of its ancestors. -/
theorem calculateMemPoolAncestors_iff (hs : Graph s) (hfits : s.Fits) (hlim : lim.Fits)
    (hentry : entry.nTxSize < 2 ^ 63) : ∃ A err B, A.Nodup ∧
      (∀ a, a ∈ A ↔ ∃ p, (s.hasTx p = true ∧ ∃ o ∈ entry.tx.prevouts, o.hash = p) ∧
        Relation.ReflTransGen s.SpendsFrom p a) ∧
      s.calculateMemPoolAncestors entry lim true = some (err, B) ∧
      (err = none ↔ s.Meets lim entry A) ∧ (err = none → B = A) := by
  obtain ⟨A, hA, hnodup, hmem⟩ := ancestors_of_new hs entry
  obtain ⟨r, hr, hrnodup, hrmem⟩ := searchParents_noLimits s entry.tx.prevouts [] List.nodup_nil
  obtain ⟨err, r', hsearch, hiff, heq⟩ := searchParents_iff hlim s entry.tx.prevouts [] r
    (fun hne => absurd rfl hne) hr
  simp only [calculateMemPoolAncestors, if_true, hr, walkAncestors_noLimits hs.keys,
    Option.map_eq_some_iff, Prod.mk.injEq, true_and, exists_eq_right] at hA
  have hsub : r.length ≤ A.length :=
    (hrnodup.subperm (Worklist.stage_subset_of_run hA)).length_le
  have hempty : r = [] → A = [] := by
    rintro rfl
    rw [Worklist.run_nil] at hA
    exact (Option.some.inj hA).symm
  cases err with
  | some err =>
    refine ⟨A, some err, [], hnodup, hmem, ?_, refused_iff fun hmeets => ?_, refused_elim⟩
    · simp only [calculateMemPoolAncestors, if_true, hsearch]
    · refine absurd (hiff.mpr fun hne => ?_) (Option.some_ne_none err)
      have hpos := List.length_pos_of_ne_nil hne
      have hcount := hmeets.count (List.ne_nil_of_length_pos (by omega))
      omega
  | none =>
    obtain rfl := heq rfl
    have hstage : ∀ x ∈ r', s.hasTx x = true := fun x hx =>
      (((hrmem x).mp hx).resolve_left List.not_mem_nil).1
    obtain ⟨err, B, hwalk, hB, hverdict⟩ := walkAncestors_iff hs hfits hlim hentry _ _ _ _ A hA
      ⟨by rw [List.append_nil]; exact hrnodup, hstage,
        by rw [List.map_nil, List.sum_nil, Int.add_zero], by omega, hiff.mp rfl⟩
    refine ⟨A, err, B, hnodup, hmem, ?_, hverdict.trans ?_, hB⟩
    · simp only [calculateMemPoolAncestors, if_true, hsearch, hwalk]
    · have hne : r' ≠ [] ↔ A ≠ [] := by
        constructor
        · intro hr' hA'
          rw [hA', List.length_nil] at hsub
          exact hr' (List.eq_nil_of_length_eq_zero (Nat.le_zero.mp hsub))
        · intro hA' hr'
          exact hA' (hempty hr')
      rw [hne]
      constructor
      · rintro ⟨hlimits, hroom⟩
        exact ⟨fun h => (hlimits h).1, fun h => (hlimits h).2,
          fun a ha => hroom a ha List.not_mem_nil⟩
      · intro hmeets
        exact ⟨fun h => ⟨hmeets.count h, hmeets.size h⟩, fun a ha _ => hmeets.room a ha⟩

/-! ## The limits in the pool -/

open Classical in
/-- The transactions of the pool that `c` spends from, directly or not. -/
noncomputable def ancestors (s : CTxMemPool) (c : Uint256) : Finset Uint256 :=
  s.mapTx.keys.toFinset.filter fun a => Relation.TransGen s.SpendsFrom c a

theorem mem_ancestors {c a : Uint256} :
    a ∈ s.ancestors c ↔ Relation.TransGen s.SpendsFrom c a := by
  classical
  rw [ancestors, Finset.mem_filter]
  refine ⟨fun h => h.2, fun h => ⟨?_, h⟩⟩
  obtain ⟨b, -, hb⟩ := Relation.TransGen.tail'_iff.mp h
  exact hasTx_iff_mem_keys.mp hb.hasTx_right

/-- The transaction `x` and the transactions `F`, if there are any, keep to the limits. -/
def Keeps (s : CTxMemPool) (count size : ℕ) (x : Uint256) (F : Finset Uint256) : Prop :=
  F.Nonempty → F.card + 1 ≤ count ∧ s.sizeAt x + ∑ a ∈ F, s.sizeAt a ≤ size

/-- No transaction of the pool has too many ancestors or descendants. -/
structure Bounded (lim : AncestorLimits) (s : CTxMemPool) : Prop where
  ancestors : ∀ x, s.Keeps lim.ancestorCount lim.ancestorSize x (s.ancestors x)
  descendants : ∀ x, s.Keeps lim.descendantCount lim.descendantSize x (s.descendants x)

/-- The sizes are 63-bit numbers, too. -/
structure Limited (lim : AncestorLimits) (s : CTxMemPool) : Prop where
  size : ∀ x, s.sizeAt x < 2 ^ 63
  bounded : s.Bounded lim

theorem Keeps.mono {count size : ℕ} {x : Uint256} {F F' : Finset Uint256}
    (h : s.Keeps count size x F) (hsub : F' ⊆ F) (hx : F'.Nonempty → s'.sizeAt x = s.sizeAt x)
    (hsize : ∀ a ∈ F', s'.sizeAt a = s.sizeAt a) : s'.Keeps count size x F' := by
  intro hne
  obtain ⟨hcard, hsum⟩ := h (hne.mono hsub)
  have hle := Finset.card_le_card hsub
  have hsum' : ∑ a ∈ F', s'.sizeAt a ≤ ∑ a ∈ F, s.sizeAt a := by
    rw [Finset.sum_congr rfl hsize]
    exact Finset.sum_le_sum_of_subset_of_nonneg hsub fun a _ _ => s.sizeAt_nonneg a
  rw [hx hne]
  constructor
  · omega
  · omega

/-- Some of the transactions are left. -/
theorem Limited.of_lookup (h : s.Limited lim) (hlookup : ∀ x e', s'.mapTx.lookup x = some e' →
    ∃ e, s.mapTx.lookup x = some e ∧ e'.tx = e.tx ∧ e'.nTxSize = e.nTxSize) :
    s'.Limited lim := by
  have hhas : ∀ x, s'.hasTx x = true → s.hasTx x = true ∧ s'.sizeAt x = s.sizeAt x := by
    intro x hx
    obtain ⟨e', he'⟩ := hasTx_iff_lookup.mp hx
    obtain ⟨e, he, -, hsize⟩ := hlookup x e' he'
    refine ⟨hasTx_iff_lookup.mpr ⟨e, he⟩, ?_⟩
    rw [sizeAt_of_lookup he', sizeAt_of_lookup he, hsize]
  have hedge : ∀ c p, s'.SpendsFrom c p → s.SpendsFrom c p := by
    rintro c p ⟨tx, htx, hp, ho⟩
    refine ⟨tx, ?_, (hhas p hp).1, ho⟩
    obtain ⟨e', he', rfl⟩ := Option.map_eq_some_iff.mp htx
    obtain ⟨e, he, heq, -⟩ := hlookup c e' he'
    rw [txAt, he, heq]
    rfl
  have hpath : ∀ c p, Relation.TransGen s'.SpendsFrom c p → Relation.TransGen s.SpendsFrom c p :=
    fun c p hcp => Relation.TransGen.mono hedge _ _ hcp
  have hends : ∀ {c p}, Relation.TransGen s'.SpendsFrom c p →
      s'.hasTx c = true ∧ s'.hasTx p = true := by
    intro c p hcp
    obtain ⟨b, hb, -⟩ := Relation.TransGen.head'_iff.mp hcp
    obtain ⟨d, -, hd⟩ := Relation.TransGen.tail'_iff.mp hcp
    exact ⟨hb.hasTx_left, hd.hasTx_right⟩
  refine ⟨fun x => ?_, fun x => ?_, fun x => ?_⟩
  · by_cases hx : s'.hasTx x = true
    · rw [(hhas x hx).2]
      exact h.size x
    · rw [sizeAt, coreAt, Option.not_isSome_iff_eq_none.mp hx]
      exact (by omega : (0 : ℤ) < 2 ^ 63)
  · refine (h.bounded.ancestors x).mono (fun a ha => ?_) (fun hne => ?_) fun a ha => ?_
    · exact mem_ancestors.mpr (hpath x a (mem_ancestors.mp ha))
    · obtain ⟨a, ha⟩ := hne
      exact (hhas x (hends (mem_ancestors.mp ha)).1).2
    · exact (hhas a (hends (mem_ancestors.mp ha)).2).2
  · refine (h.bounded.descendants x).mono (fun d hd => ?_) (fun hne => ?_) fun d hd => ?_
    · exact mem_descendants.mpr (hpath d x (mem_descendants.mp hd))
    · obtain ⟨d, hd⟩ := hne
      exact (hhas x (hends (mem_descendants.mp hd)).2).2
    · exact (hhas d (hends (mem_descendants.mp hd)).1).2

/-- The operations but `insertTx` keep the limits. -/
theorem stable_limited (mu : MemUsage) (lim : AncestorLimits) : Stable mu (Limited lim) where
  frame h hf := h.of_lookup fun x e' he' => by
    obtain ⟨e, he, hcore⟩ := hf.lookup he'
    have htx := congrArg CTxMemPoolEntry.tx hcore
    have hsize := congrArg CTxMemPoolEntry.nTxSize hcore
    exact ⟨e, he, htx, hsize⟩
  removeUnchecked := by
    intro s s' it h hr
    simp only [removeUnchecked, Option.bind_eq_bind, Option.bind_eq_some_iff] at hr
    obtain ⟨e, -, hr⟩ := hr
    obtain rfl := Option.some.inj hr
    refine h.of_lookup fun x e' he' => ⟨e', ?_, rfl, rfl⟩
    by_cases hx : x = it
    · subst hx
      rw [AList.lookup_erase] at he'
      cases he'
    · rw [AList.lookup_erase_ne hx] at he'
      exact he'
  updateFeeDelta := by
    intro s it e h he delta
    refine h.of_lookup fun x e' he' => ?_
    by_cases hx : x = it
    · subst hx
      rw [AList.lookup_insert] at he'
      obtain rfl := Option.some.inj he'
      exact ⟨e, he, rfl, rfl⟩
    · rw [AList.lookup_insert_ne hx] at he'
      exact ⟨e', he', rfl, rfl⟩
  other h _ _ := h.of_lookup fun _ e' he' => ⟨e', he', rfl, rfl⟩
  clear h := h.of_lookup fun x e' he' => by cases he'

/-- The totals of a pool with limits are 63-bit numbers. -/
theorem Limited.fits (h : s.Limited lim) (hs : Graph s) (hlim : lim.Fits) : s.Fits := by
  have hsize : ∀ {a e}, s.mapTx.lookup a = some e → e.nTxSize < 2 ^ 63 := by
    intro a e he
    have hlt := h.size a
    rw [sizeAt_of_lookup he] at hlt
    omega
  have hsum : ∀ a, 0 ≤ ∑ d ∈ s.descendants a, s.sizeAt d := fun a =>
    Finset.sum_nonneg fun d _ => s.sizeAt_nonneg d
  have hc := hlim.descendantCount
  have hz := hlim.descendantSize
  refine ⟨hsize, fun {a e} he => ?_, fun {a e} he => ?_⟩
  · have htotal := (hs.totals a e he).size
    have hnonneg := hsum a
    by_cases hne : (s.descendants a).Nonempty
    · have hkeeps := (h.bounded.descendants a hne).2
      rw [sizeAt_of_lookup he] at hkeeps
      omega
    · rw [Finset.not_nonempty_iff_eq_empty.mp hne, Finset.sum_empty] at htotal
      have hlt := hsize he
      omega
  · have htotal := (hs.totals a e he).count
    by_cases hne : (s.descendants a).Nonempty
    · have hkeeps := (h.bounded.descendants a hne).1
      omega
    · rw [Finset.not_nonempty_iff_eq_empty.mp hne, Finset.card_empty] at htotal
      omega

/-- A transaction that breaks no limit is added. -/
theorem Limited.insert (h : s.Limited lim) (hs : Graph s) (ha : Addable s entry)
    (hentry : entry.nTxSize < 2 ^ 63) {A : SetEntries} (hnodup : A.Nodup)
    (hmem : ∀ a, a ∈ A ↔ ∃ p, (s.hasTx p = true ∧ ∃ o ∈ entry.tx.prevouts, o.hash = p) ∧
      Relation.ReflTransGen s.SpendsFrom p a) (hmeets : s.Meets lim entry A) {delta : ℤ}
    (hcore : ∀ x, s'.coreAt x
      = if x = entry.tx.hash then some (entry.withDelta delta).core else s.coreAt x) :
    s'.Limited lim := by
  have htx := txAdded_of_core hcore
  have hnew : ∀ y, ¬ s.SpendsFrom entry.tx.hash y := fun y hy => by
    cases hy.hasTx_left.symm.trans ha.absent
  have hsize : ∀ x, s'.sizeAt x = if x = entry.tx.hash then (entry.nTxSize : ℤ) else s.sizeAt x := by
    intro x
    rw [sizeAt, hcore]
    split_ifs
    · have htotals := (ha.withDelta delta (fun _ => 0) (fun _ => 0)).2.1
      exact congrArg Nat.cast htotals
    · rfl
  have hother : ∀ x, s.hasTx x = true → x ≠ entry.tx.hash := by
    rintro x hx rfl
    cases hx.symm.trans ha.absent
  have hsame : ∀ x, x ≠ entry.tx.hash → s'.sizeAt x = s.sizeAt x := fun x hx =>
    (hsize x).trans (if_neg hx)
  have hin : ∀ a ∈ A, s.hasTx a = true := by
    intro a ha'
    obtain ⟨p, ⟨hp, -⟩, hpa⟩ := (hmem a).mp ha'
    rcases Relation.reflTransGen_iff_eq_or_transGen.mp hpa with rfl | hpath
    · exact hp
    · obtain ⟨b, -, hb⟩ := Relation.TransGen.tail'_iff.mp hpath
      exact hb.hasTx_right
  refine ⟨fun x => ?_, fun x => ?_, fun x => ?_⟩
  · rw [hsize]
    split_ifs
    · omega
    · exact h.size x
  · by_cases hx : x = entry.tx.hash
    · -- the ancestors of the new transaction
      subst hx
      have hanc : s'.ancestors entry.tx.hash = A.toFinset := by
        ext a
        rw [mem_ancestors, Paths.transGen_new (ha.spendsFrom htx) (ha.not_spendsFrom htx) hnew,
          List.mem_toFinset, hmem]
      intro hne
      rw [hanc] at hne ⊢
      have hA : A ≠ [] := by
        rintro rfl
        exact Finset.not_nonempty_empty hne
      have hsum : ∑ a ∈ A.toFinset, s'.sizeAt a = (A.map s.sizeAt).sum := by
        rw [← List.sum_toFinset s.sizeAt hnodup]
        exact Finset.sum_congr rfl fun a ha' =>
          hsame a (hother a (hin a (List.mem_toFinset.mp ha')))
      rw [List.toFinset_card_of_nodup hnodup, hsum, hsize, if_pos rfl]
      exact ⟨hmeets.count hA, hmeets.size hA⟩
    · refine (h.bounded.ancestors x).mono (fun a hxa => ?_) (fun _ => hsame x hx) fun a hxa => ?_
      · exact mem_ancestors.mpr ((Paths.transGen_of_ne (ha.spendsFrom htx) (ha.not_spendsFrom htx)
          hx).mp (mem_ancestors.mp hxa))
      · have hpath := (Paths.transGen_of_ne (ha.spendsFrom htx) (ha.not_spendsFrom htx) hx).mp
          (mem_ancestors.mp hxa)
        obtain ⟨b, -, hb⟩ := Relation.TransGen.tail'_iff.mp hpath
        exact hsame a (hother a hb.hasTx_right)
  · rw [ha.descendants htx hmem x]
    have hdesc : ∀ d ∈ s.descendants x, s'.sizeAt d = s.sizeAt d := by
      intro d hd
      obtain ⟨b, hb, -⟩ := Relation.TransGen.head'_iff.mp (mem_descendants.mp hd)
      exact hsame d (hother d hb.hasTx_left)
    split_ifs with hx
    · -- an ancestor has one more descendant
      intro _
      obtain ⟨e, he⟩ := hasTx_iff_lookup.mp (hin x hx)
      obtain ⟨hroomSize, hroomCount⟩ := hmeets.room x hx e he
      have hcount := (hs.totals x e he).count
      have htotal := (hs.totals x e he).size
      have hsum : ∑ d ∈ s.descendants x, s'.sizeAt d = ∑ d ∈ s.descendants x, s.sizeAt d :=
        Finset.sum_congr rfl hdesc
      have hfresh : entry.tx.hash ∉ s.descendants x := by
        intro hd
        obtain ⟨b, hb, -⟩ := Relation.TransGen.head'_iff.mp (mem_descendants.mp hd)
        exact hnew b hb
      rw [Finset.card_insert_of_notMem hfresh, Finset.sum_insert hfresh, hsum,
        hsame x (hother x (hin x hx)), hsize entry.tx.hash, if_pos rfl, sizeAt_of_lookup he]
      constructor
      · omega
      · omega
    · refine (h.bounded.descendants x).mono (Finset.Subset.refl _) (fun hne => ?_) hdesc
      obtain ⟨d, hd⟩ := hne
      obtain ⟨b, -, hb⟩ := Relation.TransGen.tail'_iff.mp (mem_descendants.mp hd)
      exact hsame x (hother x hb.hasTx_right)

end CTxMemPool

/-- An entry is inserted after `CalculateMemPoolAncestors` let it in. -/
def PoolOp.LetIn (lim : AncestorLimits) (s : CTxMemPool) : PoolOp → Prop
  | .insertTx entry => entry.nTxSize < 2 ^ 63 ∧
      (s.calculateMemPoolAncestors entry lim true).map Prod.fst = some none
  | .remove _ | .removeForBlock _ _ | .connectBlock _ _ _ | .removeConflicts _
  | .removeForReorg _ _ | .expire _ | .trimToSize _ | .prioritiseTransaction _ _
  | .clear => True

instance (lim : AncestorLimits) (s : CTxMemPool) : ∀ op : PoolOp, Decidable (op.LetIn lim s)
  | .insertTx entry => inferInstanceAs (Decidable (entry.nTxSize < 2 ^ 63 ∧
      (s.calculateMemPoolAncestors entry lim true).map Prod.fst = some none))
  | .remove _ | .removeForBlock _ _ | .connectBlock _ _ _ | .removeConflicts _
  | .removeForReorg _ _ | .expire _ | .trimToSize _ | .prioritiseTransaction _ _
  | .clear => .isTrue trivial

namespace CTxMemPool

variable {usage : CCoins → ℕ} {mu : MemUsage} {lowest : CTxMemPool → Option Uint256}
  {body : Uint256 → CTransaction}

/-- One operation. -/
theorem Limited.step (h : s.Limited lim) (hlim : lim.Fits) (hok : PoolOk body s) {op : PoolOp}
    (hop : op.Legal usage mu lowest body s) (hin : op.LetIn lim s)
    (hs : s.step usage mu lowest op = some s') : s'.Limited lim := by
  by_cases hinsert : ∃ entry, op = .insertTx entry
  · obtain ⟨entry, rfl⟩ := hinsert
    obtain ⟨hbody, blockHeight, hcheck⟩ := hop
    obtain ⟨hentry, hverdict⟩ := hin
    by_cases henters : s.Enters entry
    · obtain ⟨s₁, hs₁, -, -, hcore⟩ := insertTx_of_enters usage mu hok.wf hok.sound hcheck hbody
        henters
      rw [CTxMemPool.step, hs₁] at hs
      obtain rfl := Option.some.inj hs
      obtain ⟨A, err, B, hnodup, hmem, hrun, hiff, -⟩ := calculateMemPoolAncestors_iff
        hok.sound.graph (h.fits hok.sound.graph hlim) hlim hentry
      rw [hrun] at hverdict
      exact h.insert hok.sound.graph (hok.sound.addable hcheck henters).1 hentry hnodup hmem
        (hiff.mp (Option.some.inj hverdict)) hcore
    · obtain ⟨r, view, hr, -, -⟩ := insertTx_of_not_enters usage mu hok.wf henters
      rw [CTxMemPool.step, hr] at hs
      obtain rfl := Option.some.inj hs
      exact h.of_lookup fun _ e' he' => ⟨e', he', rfl, rfl⟩
  · exact (stable_limited mu lim).step h (fun entry heq => hinsert ⟨entry, heq⟩) hs

theorem limited_empty (lim : AncestorLimits) (coins : CCoinsView) : (empty coins).Limited lim := by
  have hno : ∀ {c p}, ¬ Relation.TransGen (empty coins).SpendsFrom c p := by
    intro c p hcp
    obtain ⟨b, hb, -⟩ := Relation.TransGen.head'_iff.mp hcp
    cases hb.hasTx_left
  refine ⟨fun x => ?_, fun x hne => ?_, fun x hne => ?_⟩
  · exact (by decide : (0 : ℤ) < 2 ^ 63)
  · obtain ⟨a, ha⟩ := hne
    exact absurd (mem_ancestors.mp ha) hno
  · obtain ⟨d, hd⟩ := hne
    exact absurd (mem_descendants.mp hd) hno

/-- The pool is sound and keeps to the limits after every run in which it let in what was inserted. -/
theorem limited_of_run {coins : CCoinsView} (hcoins : coins.Wf) (hlim : lim.Fits) {ops : List PoolOp}
    (hops : Runs.Each (step usage mu lowest)
      (fun s op => op.Legal usage mu lowest body s ∧ op.LetIn lim s) (empty coins) ops) :
    Runs.Always (step usage mu lowest) (fun s => PoolOk body s ∧ s.Limited lim) (empty coins) ops := by
  refine Runs.always_of_each ?_ ops (empty coins) ⟨poolOk_empty hcoins, limited_empty lim coins⟩ hops
  rintro s op ⟨hok, h⟩ ⟨hlegal, hin⟩
  obtain ⟨s', hs', hok'⟩ := hok.step hlegal
  exact ⟨s', hs', hok', h.step hlim hok hlegal hin hs'⟩

/-- **The limits hold.**  If `CalculateMemPoolAncestors` let in every transaction that is inserted, then in
every state of every run no transaction of the pool has more ancestors or descendants, by number or by
size, than the limits say; a transaction on its own may be of any size. -/
theorem bounded_of_run (usage : CCoins → ℕ) (mu : MemUsage)
    (lowest : CTxMemPool → Option Uint256) (body : Uint256 → CTransaction) {coins : CCoinsView}
    (hcoins : coins.Wf) {lim : AncestorLimits} (hlim : lim.Fits) (ops : List PoolOp)
    (hops : Runs.Each (step usage mu lowest)
      (fun s op => op.Legal usage mu lowest body s ∧ op.LetIn lim s) (empty coins) ops) :
    Runs.Always (step usage mu lowest) (Bounded lim) (empty coins) ops :=
  (limited_of_run hcoins hlim hops).mono fun _ h => h.2.bounded

/-- **The verdict.**  In every state of such a run, `CalculateMemPoolAncestors` refuses exactly the entries
that break one of the limits together with the ancestors they would have, and otherwise answers with
these. -/
theorem verdict_of_run (usage : CCoins → ℕ) (mu : MemUsage)
    (lowest : CTxMemPool → Option Uint256) (body : Uint256 → CTransaction) {coins : CCoinsView}
    (hcoins : coins.Wf) {lim : AncestorLimits} (hlim : lim.Fits) (ops : List PoolOp)
    (hops : Runs.Each (step usage mu lowest)
      (fun s op => op.Legal usage mu lowest body s ∧ op.LetIn lim s) (empty coins) ops) :
    Runs.Always (step usage mu lowest) (fun s => ∀ entry : CTxMemPoolEntry,
      entry.nTxSize < 2 ^ 63 → ∃ A err B, A.Nodup ∧
        (∀ a, a ∈ A ↔ ∃ p, (s.hasTx p = true ∧ ∃ o ∈ entry.tx.prevouts, o.hash = p) ∧
          Relation.ReflTransGen s.SpendsFrom p a) ∧
        s.calculateMemPoolAncestors entry lim true = some (err, B) ∧
        (err = none ↔ s.Meets lim entry A) ∧ (err = none → B = A)) (empty coins) ops :=
  (limited_of_run hcoins hlim hops).mono fun _ h _ hentry =>
    calculateMemPoolAncestors_iff h.1.sound.graph (h.2.fits h.1.sound.graph hlim) hlim hentry

/-- Room for one ancestor and one descendant. -/
def pairLimits : AncestorLimits := ⟨2, 200, 2, 200⟩

/-- The parent and its child have just enough room. -/
theorem legal_confirmRun : Runs.Each
    (step (fun _ => 0) ⟨1, 1, 1, 1, 1⟩ fun s => s.mapTx.keys.head?)
    (fun s op => op.Legal (fun _ => 0) ⟨1, 1, 1, 1, 1⟩ (fun s => s.mapTx.keys.head?) sampleBody s ∧
      op.LetIn pairLimits s) (empty oneCoin) confirmRun := by
  have hops : Runs.Each (step (fun _ => 0) ⟨1, 1, 1, 1, 1⟩ fun s => s.mapTx.keys.head?)
      (fun s op => (op.Allowed (fun _ => 0) ⟨1, 1, 1, 1, 1⟩ (fun s => s.mapTx.keys.head?)
        sampleBody s ∧ op.Accepted 150 s) ∧ op.LetIn pairLimits s) (empty oneCoin) confirmRun := by
    decide +kernel
  exact hops.mono fun s op h => ⟨⟨h.1.1, 150, h.1.2⟩, h.2⟩

theorem bounded_of_run_confirmRun :
    Runs.Always (step (fun _ => 0) ⟨1, 1, 1, 1, 1⟩ fun s => s.mapTx.keys.head?)
      (Bounded pairLimits) (empty oneCoin) confirmRun :=
  bounded_of_run _ _ _ sampleBody wf_oneCoin (by constructor <;> decide) _ legal_confirmRun

theorem verdict_of_run_confirmRun :
    Runs.Always (step (fun _ => 0) ⟨1, 1, 1, 1, 1⟩ fun s => s.mapTx.keys.head?)
      (fun s => ∃ A err B, s.calculateMemPoolAncestors (.ofTx childTx 1 1 10 false) pairLimits true
        = some (err, B) ∧ (err = none ↔ s.Meets pairLimits (.ofTx childTx 1 1 10 false) A))
      (empty oneCoin) confirmRun :=
  (verdict_of_run _ _ _ sampleBody wf_oneCoin (by constructor <;> decide) _
    legal_confirmRun).mono fun _ h => by
      obtain ⟨A, err, B, -, -, hrun, hiff, -⟩ := h (.ofTx childTx 1 1 10 false) (by decide)
      exact ⟨A, err, B, hrun, hiff⟩

end CTxMemPool
