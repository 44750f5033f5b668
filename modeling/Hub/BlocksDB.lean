/-
# The headers chain of the blocks database

`Blocks::DB::appendHeader` (`libs/server/BlocksDB.cpp`).  The database keeps the tips of
all known header chains in `headerChainTips` and the best of these chains in
`headersChain`.  A header is announced by `appendHeader`; a header that turned out to be
invalid is marked and then announced once more.

A failed assertion and a null pointer that is followed are `none`.  The two theorems
`appendHeader_of_valid` and `appendHeader_of_failed` say what a call does to the tips and
to the chain, and everything about runs of calls is derived from them.
-/
import Hub.Chain

namespace Blocks

variable {ι : Type} [DecidableEq ι]

/-! ## The code -/

/-- The members of `Blocks::DB` that `appendHeader` works on, with the failure flags of
the block index (`nStatus & BLOCK_FAILED_MASK`). -/
structure DB (ι : Type) where
  failed : ι → Bool
  headersChain : CChain ι
  headerChainTips : List ι
  pindexBestHeader : Option ι

/-- A database that has seen no header, over a block index with the flags `failed`. -/
def DB.empty (failed : ι → Bool) : DB ι where
  failed := failed
  headersChain := ⟨[]⟩
  headerChainTips := []
  pindexBestHeader := none

variable (T : BlockIndex ι)

/-- The first block without a failure flag on the way down from a block; the first
argument bounds the rounds. -/
def skipFailed (failed : ι → Bool) : ℕ → ι → Option ι
  | 0, _ => none
  | fuel + 1, validPrev =>
      if failed validPrev then (T.pprev validPrev).bind (skipFailed failed fuel)
      else some validPrev

/-- The variables of the second loop; `kept` are the tips that `i` has passed. -/
structure Sweep (ι : Type) where
  kept : List ι
  headersChain : CChain ι
  validPrev : ι
  modified : Bool
  alreadyContains : Bool
  modifyingMainChain : Bool

/-- The second loop, over the tips from `i` on; `none` is its `return false`. -/
def sweep (block : ι) (valid : Bool) : List ι → Sweep ι → Option (Sweep ι)
  | [], w => some w
  | i :: tips, w =>
      if T.getAncestor i (T.nHeight block) = some block then
        -- known in this chain
        if valid then none
        else
          let mainChain := w.headersChain.contains T i
          sweep block valid tips { w with
            modified := true
            headersChain :=
              if mainChain then w.headersChain.setTip T w.validPrev else w.headersChain
            modifyingMainChain := w.modifyingMainChain || mainChain }
      else if T.getAncestor i (T.nHeight w.validPrev) = some w.validPrev then
        sweep block valid tips { w with
          kept := w.kept ++ [i]
          alreadyContains := true
          validPrev := if T.nChainWork w.validPrev < T.nChainWork i then i else w.validPrev }
      else sweep block valid tips { w with kept := w.kept ++ [i] }

/-- The end of `appendHeader`: switch to `validPrev` if it has more work. -/
def selectChain (db : DB ι) (block validPrev : ι) (modifyingMainChain : Bool) :
    Option (Bool × DB ι) :=
  db.headersChain.tip.map fun tip =>
    if T.nChainWork tip < T.nChainWork validPrev then
      (true, { db with
        headersChain := db.headersChain.setTip T validPrev
        pindexBestHeader := some block })
    else (modifyingMainChain, db)

/-- `Blocks::DB::appendHeader`. -/
def appendHeader (db : DB ι) (block : ι) : Option (Bool × DB ι) := do
  let valid := !db.failed block
  guard (valid || (T.pprev block).isSome)
  if valid && db.headersChain.contains T block then
    return (false, db)
  let start ← if valid then some block else T.pprev block
  let validPrev ← skipFailed T db.failed (T.nHeight start + 1) start
  match db.headerChainTips.find? fun tip => T.getAncestor block (T.nHeight tip) = some tip with
  | some tip =>
      let tips := db.headerChainTips.eraseP
        (fun tip => T.getAncestor block (T.nHeight tip) = some tip) ++ [validPrev]
      if db.headersChain.tip = some tip then
        return (true, { db with
          headerChainTips := tips
          headersChain := db.headersChain.setTip T validPrev
          pindexBestHeader := some validPrev })
      selectChain T { db with headerChainTips := tips } block validPrev false
  | none =>
      match sweep T block valid db.headerChainTips
        ⟨[], db.headersChain, validPrev, false, false, false⟩ with
      | none => return (false, db)
      | some w =>
          let tips := if w.modified && !w.alreadyContains then w.kept ++ [w.validPrev] else w.kept
          let tips := if valid then tips ++ [block] else tips
          let db := { db with headerChainTips := tips, headersChain := w.headersChain }
          if valid && db.headersChain.height == -1 then
            return (true, { db with
              headersChain := db.headersChain.setTip T block
              pindexBestHeader := some block })
          selectChain T db block w.validPrev w.modifyingMainChain

/-! ## The parts of a call -/

variable {T}

omit [DecidableEq ι] in
/-- The walk over failed blocks stops at the highest block without a failure flag. -/
theorem skipFailed_spec {failed : ι → Bool} {a : ι} (ha : failed a = false) :
    ∀ (fuel : ℕ) (b : ι), T.nHeight b < fuel → T.forest.Le a b →
    ∃ v, skipFailed T failed fuel b = some v ∧ T.forest.Le v b ∧ failed v = false ∧
      ∀ x, T.forest.Le x b → failed x = false → T.forest.Le x v := by
  intro fuel
  induction fuel with
  | zero =>
    intro b hfuel
    omega
  | succ fuel ih =>
    intro b hfuel hab
    rw [skipFailed]
    by_cases hb : failed b = true
    · rw [if_pos hb]
      cases hp : T.pprev b with
      | none =>
        obtain rfl := Forest.eq_of_le_root (F := T.forest) hp hab
        rw [ha] at hb
        cases hb
      | some p =>
        have hh := T.height_child b p hp
        have hbelow : ∀ x, T.forest.Le x b → failed x = false → T.forest.Le x p := by
          intro x hx hxf
          rcases (Forest.le_iff_of_parent (F := T.forest) hp).mp hx with rfl | hxp
          · rw [hxf] at hb
            cases hb
          · exact hxp
        obtain ⟨v, hv, hvp, hvf, hmax⟩ := ih p (by omega) (hbelow a hab ha)
        exact ⟨v, hv, hvp.trans (Forest.Le.of_parent hp), hvf,
          fun x hx hxf => hmax x (hbelow x hx hxf) hxf⟩
    · rw [if_neg hb]
      exact ⟨b, rfl, Forest.Le.refl b, by simpa using hb, fun x hx _ => hx⟩

omit [DecidableEq ι] in
theorem skipFailed_sound {failed : ι → Bool} : ∀ (fuel : ℕ) (b v : ι),
    skipFailed T failed fuel b = some v → T.forest.Le v b ∧ failed v = false := by
  intro fuel
  induction fuel with
  | zero =>
    intro b v h
    cases h
  | succ fuel ih =>
    intro b v h
    rw [skipFailed] at h
    split at h
    · obtain ⟨p, hp, hv⟩ := Option.bind_eq_some_iff.mp h
      obtain ⟨hle, hf⟩ := ih p v hv
      exact ⟨hle.trans (Forest.Le.of_parent hp), hf⟩
    · next hb =>
      obtain rfl := Option.some.inj h
      exact ⟨Forest.Le.refl _, by simpa using hb⟩

omit [DecidableEq ι] in
theorem skipFailed_max {failed : ι → Bool} : ∀ (fuel : ℕ) (b v : ι),
    skipFailed T failed fuel b = some v →
    ∀ x, T.forest.Le x b → failed x = false → T.forest.Le x v := by
  intro fuel
  induction fuel with
  | zero =>
    intro b v h
    cases h
  | succ fuel ih =>
    intro b v h x hxb hx
    rw [skipFailed] at h
    split at h
    · next hb =>
      obtain ⟨p, hp, hv⟩ := Option.bind_eq_some_iff.mp h
      rcases (Forest.le_iff_of_parent (F := T.forest) hp).mp hxb with rfl | hxp
      · rw [hx] at hb
        cases hb
      · exact ih p v hv x hxp hx
    · obtain rfl := Option.some.inj h
      exact hxb

/-- The last part of `appendHeader` on a chain with tip `t`. -/
theorem selectChain_spec (db : DB ι) {t : ι} (ht : db.headersChain.IsPath T t) (block v : ι)
    (m : Bool) :
    ∃ r db', selectChain T db block v m = some (r, db') ∧ db'.failed = db.failed ∧
      db'.headerChainTips = db.headerChainTips ∧
      db'.headersChain.IsPath T (if T.nChainWork t < T.nChainWork v then v else t) := by
  rw [selectChain, ht.tip_eq, Option.map_some]
  by_cases hw : T.nChainWork t < T.nChainWork v
  · rw [if_pos hw, if_pos hw]
    exact ⟨_, _, rfl, rfl, rfl, CChain.setTip_isPath ht.valid v⟩
  · rw [if_neg hw, if_neg hw]
    exact ⟨_, _, rfl, rfl, rfl, ht⟩

/-- The end of a call in which the first loop found `tip` and put `v` in its place. -/
theorem replaceTip_spec {db : DB ι} {t : ι} (ht : db.headersChain.IsPath T t) (block v tip : ι)
    (tips : List ι) :
    ∃ r db', (if db.headersChain.tip = some tip then
          some (true, { db with
            headerChainTips := tips
            headersChain := db.headersChain.setTip T v
            pindexBestHeader := some v })
        else selectChain T { db with headerChainTips := tips } block v false) = some (r, db') ∧
      db'.failed = db.failed ∧ db'.headerChainTips = tips ∧
      db'.headersChain.IsPath T
        (if tip = t ∨ T.nChainWork t < T.nChainWork v then v else t) := by
  rw [ht.tip_eq]
  by_cases htip : tip = t
  · rw [if_pos (by rw [htip]), if_pos (.inl htip)]
    exact ⟨_, _, rfl, rfl, rfl, CChain.setTip_isPath ht.valid v⟩
  · rw [if_neg (fun h => htip (Option.some.inj h).symm)]
    simp only [htip, false_or]
    exact selectChain_spec { db with headerChainTips := tips } ht block v false

/-- For a valid header the second loop looks for a tip at or above it. -/
theorem sweep_of_valid {b : ι} : ∀ (tips : List ι) (w : Sweep ι), w.validPrev = b →
    sweep T b true tips w =
      if ∃ i ∈ tips, T.forest.Le b i then none else some { w with kept := w.kept ++ tips } := by
  intro tips
  induction tips with
  | nil =>
    intro w _
    simp [sweep]
  | cons i tips ih =>
    intro w hw
    rw [sweep, hw]
    simp only [T.getAncestor_eq_some_iff]
    by_cases hi : T.forest.Le b i
    · rw [if_pos hi, if_pos trivial, if_pos ⟨i, by simp, hi⟩]
    · rw [if_neg hi, if_neg hi, ih _ rfl]
      simp [hi]

/-- How the second loop moves `validPrev` at a tip that stays. -/
def climb (T : BlockIndex ι) (v i : ι) : ι :=
  if T.forest.Le v i ∧ T.nChainWork v < T.nChainWork i then i else v

theorem le_climb (v i : ι) : T.forest.Le v (climb T v i) := by
  unfold climb
  split
  · rename_i h
    exact h.1
  · exact Forest.Le.refl v

/-- `validPrev` is the block that the loop started with, or a tip that stayed. -/
theorem foldl_climb_mem (l : List ι) (v : ι) :
    l.foldl (climb T) v = v ∨ l.foldl (climb T) v ∈ l := by
  induction l generalizing v with
  | nil => exact .inl rfl
  | cons i l ih =>
    rw [List.foldl_cons]
    rcases ih (climb T v i) with h | h
    · rw [h]
      unfold climb
      split
      · exact .inr (by simp)
      · exact .inl rfl
    · exact .inr (List.mem_cons_of_mem i h)

theorem foldl_climb_of_not_le {l : List ι} {v : ι} (h : ∀ i ∈ l, ¬ T.forest.Le v i) :
    l.foldl (climb T) v = v := by
  induction l with
  | nil => rfl
  | cons i l ih =>
    have hi : climb T v i = v := by simp [climb, h i (by simp)]
    rw [List.foldl_cons, hi]
    exact ih fun j hj => h j (by simp [hj])

/-- The tips that do not descend from `b`. -/
def survivors (T : BlockIndex ι) (b : ι) (tips : List ι) : List ι :=
  tips.filter fun i => ¬ T.forest.Le b i

theorem mem_survivors {b x : ι} {tips : List ι} :
    x ∈ survivors T b tips ↔ x ∈ tips ∧ ¬ T.forest.Le b x := by
  simp [survivors]

/-- The second loop for a failed header `b`, on a chain with tip `t`. -/
theorem sweep_of_failed {b : ι} : ∀ (tips : List ι) (w : Sweep ι) (t : ι),
    w.headersChain.IsPath T t → ∃ w' t', sweep T b false tips w = some w' ∧
      w'.kept = w.kept ++ survivors T b tips ∧
      w'.modified = (w.modified || decide (∃ i ∈ tips, T.forest.Le b i)) ∧
      w'.alreadyContains =
        (w.alreadyContains || decide (∃ i ∈ survivors T b tips, T.forest.Le w.validPrev i)) ∧
      w'.validPrev = (survivors T b tips).foldl (climb T) w.validPrev ∧
      w'.headersChain.IsPath T t' ∧
      ((∀ i ∈ tips, T.forest.Le b i → ¬ T.forest.Le i t) → t' = t) ∧
      ((T.forest.Le t w.validPrev ∨ ∃ i ∈ tips, T.forest.Le b i ∧ T.forest.Le i t) →
        T.forest.Le t' w'.validPrev) := by
  intro tips
  induction tips with
  | nil =>
    intro w t ht
    refine ⟨w, t, rfl, ?_, ?_, ?_, rfl, ht, fun _ => rfl, ?_⟩
    · simp [survivors]
    · simp
    · simp [survivors]
    · rintro (h | ⟨i, hi, -⟩)
      · exact h
      · simp at hi
  | cons i tips ih =>
    intro w t ht
    rw [sweep]
    simp only [T.getAncestor_eq_some_iff]
    by_cases hi : T.forest.Le b i
    · have hsurv : survivors T b (i :: tips) = survivors T b tips := by simp [survivors, hi]
      rw [if_pos hi, if_neg (by simp), hsurv]
      by_cases hmain : w.headersChain.contains T i = true
      · -- the chain is cut down to `validPrev`
        have hit := ht.contains_iff.mp hmain
        simp only [hmain, if_true]
        obtain ⟨w', t', hrun, hkept, hmod, hcont, hprev, hpath, -, hle⟩ :=
          ih { w with
            modified := true
            headersChain := w.headersChain.setTip T w.validPrev
            modifyingMainChain := w.modifyingMainChain || true } w.validPrev
            (CChain.setTip_isPath ht.valid w.validPrev)
        refine ⟨w', t', hrun, hkept, ?_, hcont, hprev, hpath, ?_, ?_⟩
        · simp [hmod, hi]
        · intro h
          exact absurd hit (h i (by simp) hi)
        · intro _
          exact hle (.inl (Forest.Le.refl _))
      · have hit : ¬ T.forest.Le i t := fun h => hmain (ht.contains_iff.mpr h)
        simp only [hmain, Bool.false_eq_true, if_false]
        obtain ⟨w', t', hrun, hkept, hmod, hcont, hprev, hpath, hsame, hle⟩ :=
          ih { w with
            modified := true
            modifyingMainChain := w.modifyingMainChain || false } t ht
        refine ⟨w', t', hrun, hkept, ?_, hcont, hprev, hpath, ?_, ?_⟩
        · simp [hmod, hi]
        · intro h
          exact hsame fun j hj => h j (by simp [hj])
        · rintro (h | ⟨j, hj, hbj, hjt⟩)
          · exact hle (.inl h)
          · rcases List.mem_cons.mp hj with rfl | hj
            · exact absurd hjt hit
            · exact hle (.inr ⟨j, hj, hbj, hjt⟩)
    · have hsurv : survivors T b (i :: tips) = i :: survivors T b tips := by simp [survivors, hi]
      have htail : (∃ j ∈ i :: tips, T.forest.Le b j ∧ T.forest.Le j t) →
          ∃ j ∈ tips, T.forest.Le b j ∧ T.forest.Le j t := by
        rintro ⟨j, hj, hbj, hjt⟩
        rcases List.mem_cons.mp hj with rfl | hj
        · exact absurd hbj hi
        · exact ⟨j, hj, hbj, hjt⟩
      rw [if_neg hi, hsurv]
      by_cases hv : T.forest.Le w.validPrev i
      · have hclimb : (if T.nChainWork w.validPrev < T.nChainWork i then i else w.validPrev)
            = climb T w.validPrev i := by simp [climb, hv]
        rw [if_pos hv, hclimb]
        obtain ⟨w', t', hrun, hkept, hmod, hcont, hprev, hpath, hsame, hle⟩ :=
          ih { w with
            kept := w.kept ++ [i]
            alreadyContains := true
            validPrev := climb T w.validPrev i } t ht
        refine ⟨w', t', hrun, ?_, ?_, ?_, hprev, hpath, ?_, ?_⟩
        · simp [hkept]
        · simp [hmod, hi]
        · simp [hcont, hv]
        · intro h
          exact hsame fun j hj => h j (by simp [hj])
        · rintro (h | h)
          · exact hle (.inl (h.trans (le_climb _ _)))
          · exact hle (.inr (htail h))
      · have hclimb : climb T w.validPrev i = w.validPrev := by simp [climb, hv]
        rw [if_neg hv]
        obtain ⟨w', t', hrun, hkept, hmod, hcont, hprev, hpath, hsame, hle⟩ :=
          ih { w with kept := w.kept ++ [i] } t ht
        refine ⟨w', t', hrun, ?_, ?_, ?_, ?_, hpath, ?_, ?_⟩
        · simp [hkept]
        · simp [hmod, hi]
        · simp [hcont, hv]
        · rw [List.foldl_cons, hclimb]
          exact hprev
        · intro h
          exact hsame fun j hj => h j (by simp [hj])
        · rintro (h | h)
          · exact hle (.inl h)
          · exact hle (.inr (htail h))

/-! ## A call -/

/-- The chain `c'` has switched to `b`, or is still the chain `c`, whose tip has as much
work. -/
def Switches (T : BlockIndex ι) (c : CChain ι) (b : ι) (c' : CChain ι) : Prop :=
  (c'.IsPath T b ∧ ∀ t, c.IsPath T t → T.nChainWork t < T.nChainWork b ∨ T.forest.Le t b) ∨
    (c' = c ∧ ∃ t, c.IsPath T t ∧ T.nChainWork b ≤ T.nChainWork t)

/-- What announcing a valid header `b` makes of `db`: either `b` is known and nothing
changes, or `b` replaces the first tip below it, if there is one. -/
inductive AnnounceOutcome (T : BlockIndex ι) (db : DB ι) (b : ι) (db' : DB ι) : Prop where
  | known (tips : db'.headerChainTips = db.headerChainTips)
      (chain : db'.headersChain = db.headersChain)
      (h : db.headersChain.contains T b = true ∨ ∃ i ∈ db.headerChainTips, T.forest.Le b i)
  | added
      (tips : db'.headerChainTips
        = db.headerChainTips.eraseP (fun i => T.forest.Le i b) ++ [b])
      (h : (∃ i ∈ db.headerChainTips, T.forest.Le i b) ∨
        ∀ i ∈ db.headerChainTips, ¬ T.forest.Le b i)
      (chain : Switches T db.headersChain b db'.headersChain)

omit [DecidableEq ι] in
theorem switches_of_isPath {c c' : CChain ι} {b t : ι} (P : Prop) [Decidable P]
    (ht : c.IsPath T t) (hP : P → T.nChainWork t < T.nChainWork b ∨ T.forest.Le t b)
    (hnP : ¬ P → T.nChainWork b ≤ T.nChainWork t) (hpath : c'.IsPath T (if P then b else t)) :
    Switches T c b c' := by
  by_cases h : P
  · rw [if_pos h] at hpath
    refine .inl ⟨hpath, fun u hu => ?_⟩
    obtain rfl : t = u := Option.some.inj (ht.tip_eq.symm.trans hu.tip_eq)
    exact hP h
  · rw [if_neg h] at hpath
    refine .inr ⟨?_, t, ht, hnP h⟩
    have hv : c'.vChain = c.vChain := hpath.trans ht.symm
    cases c'
    exact congrArg CChain.mk hv

/-- **Announcing a valid header.** -/
theorem appendHeader_of_valid {db : DB ι} {b : ι} (hb : db.failed b = false)
    (hc : db.headersChain.Valid T)
    (hempty : db.headersChain.vChain = [] → db.headerChainTips = []) :
    ∃ r db', appendHeader T db b = some (r, db') ∧ db'.failed = db.failed ∧
      AnnounceOutcome T db b db' := by
  have hskip : skipFailed T db.failed (T.nHeight b + 1) b = some b := by simp [skipFailed, hb]
  unfold appendHeader
  by_cases hin : db.headersChain.contains T b = true
  · exact ⟨false, db, by simp [hb, hin, guard], rfl, .known rfl rfl (.inl hin)⟩
  simp only [hb, Bool.not_false, Bool.true_or, Bool.true_and, guard, if_true, hin,
    Bool.false_eq_true, if_false, hskip, T.getAncestor_eq_some_iff, Option.bind_eq_bind,
    Option.pure_def, Option.bind_some]
  cases hfind : db.headerChainTips.find? fun tip => T.forest.Le tip b with
  | some tip =>
    have hmem := List.mem_of_find?_eq_some hfind
    have hle : T.forest.Le tip b := by simpa using List.find?_some hfind
    rcases hc with hnil | ⟨t, ht⟩
    · rw [hempty hnil] at hmem
      simp at hmem
    · obtain ⟨r, db', hrun, hfailed, htips, hpath⟩ := replaceTip_spec ht b b tip
        (db.headerChainTips.eraseP (fun tip => T.forest.Le tip b) ++ [b])
      refine ⟨r, db', hrun, hfailed, .added htips (.inl ⟨tip, hmem, hle⟩) ?_⟩
      refine switches_of_isPath _ ht ?_ ?_ hpath
      · rintro (rfl | hlt)
        · exact .inr hle
        · exact .inl hlt
      · intro h
        exact Nat.not_lt.mp fun hlt => h (.inr hlt)
  | none =>
    have hnone : ∀ i ∈ db.headerChainTips, ¬ T.forest.Le i b := by
      intro i hi
      simpa using List.find?_eq_none.mp hfind i hi
    have herase : db.headerChainTips.eraseP (fun i => T.forest.Le i b) = db.headerChainTips :=
      List.eraseP_of_forall_not fun i hi => by simpa using hnone i hi
    simp only
    rw [sweep_of_valid (b := b) _ _ rfl]
    by_cases hknown : ∃ i ∈ db.headerChainTips, T.forest.Le b i
    · rw [if_pos hknown]
      exact ⟨false, db, rfl, rfl, .known rfl rfl (.inr hknown)⟩
    · rw [if_neg hknown]
      simp only [Bool.false_and, Bool.false_eq_true, if_false, List.nil_append]
      have hfork : ∀ i ∈ db.headerChainTips, ¬ T.forest.Le b i :=
        fun i hi h => hknown ⟨i, hi, h⟩
      rcases hc with hnil | ⟨t, ht⟩
      · -- the first header of all
        have hh : db.headersChain.height = -1 := by simp [CChain.height, hnil]
        simp only [hh, beq_self_eq_true, if_true]
        refine ⟨_, _, rfl, rfl, .added (by rw [herase]) (.inr hfork) (.inl ⟨?_, ?_⟩)⟩
        · exact CChain.setTip_isPath (.inl hnil) b
        · intro t ht
          have hne := ht.height_ne
          exact absurd hh hne
      · have hne := ht.height_ne
        simp only [beq_iff_eq, hne, if_false]
        obtain ⟨r, db', hrun, hfailed, htips, hpath⟩ := selectChain_spec
          { db with headerChainTips := db.headerChainTips ++ [b] } ht b b false
        refine ⟨r, db', hrun, hfailed, .added (by rw [herase]; exact htips) (.inr hfork) ?_⟩
        exact switches_of_isPath _ ht .inl Nat.not_lt.mp hpath

/-- Where the second loop leaves `validPrev` that starts as `v`, when the header `b` has
failed. -/
def fallback (T : BlockIndex ι) (b v : ι) (tips : List ι) : ι :=
  (survivors T b tips).foldl (climb T) v

/-- What announcing a failed header `b` makes of `db`, whose chain has tip `t`.  Here `v`
is the highest block below `b` without a failure flag.  It replaces the first tip at or
below `b`.  If there is no such tip, the tips that descend from `b` go away, and `v`
becomes a tip if it is not below one that stays. -/
inductive FailOutcome (T : BlockIndex ι) (db : DB ι) (b v t : ι) (db' : DB ι) (t' : ι) :
    Prop where
  | replaced {tip : ι} (find : db.headerChainTips.find? (fun i => T.forest.Le i b) = some tip)
      (tips : db'.headerChainTips
        = db.headerChainTips.eraseP (fun i => T.forest.Le i b) ++ [v])
      (chain : t' = if tip = t ∨ T.nChainWork t < T.nChainWork v then v else t)
  | pruned (none : ∀ i ∈ db.headerChainTips, ¬ T.forest.Le i b)
      (tips : db'.headerChainTips = survivors T b db.headerChainTips ++
        (if (∃ i ∈ db.headerChainTips, T.forest.Le b i) ∧
          ¬ ∃ i ∈ survivors T b db.headerChainTips, T.forest.Le v i then [v] else []))
      (stays : (∀ i ∈ db.headerChainTips, T.forest.Le b i → ¬ T.forest.Le i t) →
        t' = if T.nChainWork t < T.nChainWork (fallback T b v db.headerChainTips)
          then fallback T b v db.headerChainTips else t)
      (falls : (∃ i ∈ db.headerChainTips, T.forest.Le b i ∧ T.forest.Le i t) →
        T.forest.Le t' (fallback T b v db.headerChainTips) ∧
        T.nChainWork (fallback T b v db.headerChainTips) ≤ T.nChainWork t')

/-- **Announcing a failed header.** -/
theorem appendHeader_of_failed {db : DB ι} {b p v t : ι} (hb : db.failed b = true)
    (hp : T.pprev b = some p) (hv : skipFailed T db.failed (T.nHeight p + 1) p = some v)
    (ht : db.headersChain.IsPath T t) :
    ∃ r db' t', appendHeader T db b = some (r, db') ∧ db'.failed = db.failed ∧
      db'.headersChain.IsPath T t' ∧ FailOutcome T db b v t db' t' := by
  unfold appendHeader
  simp only [hb, hp, Bool.not_true, Bool.false_or, Option.isSome_some, Bool.false_and, guard,
    if_true, Bool.false_eq_true, if_false, hv, T.getAncestor_eq_some_iff, Option.bind_eq_bind,
    Option.pure_def, Option.bind_some]
  cases hfind : db.headerChainTips.find? fun tip => T.forest.Le tip b with
  | some tip =>
    obtain ⟨r, db', hrun, hfailed, htips, hpath⟩ := replaceTip_spec ht b v tip
      (db.headerChainTips.eraseP (fun tip => T.forest.Le tip b) ++ [v])
    exact ⟨r, db', _, hrun, hfailed, hpath, .replaced hfind htips rfl⟩
  | none =>
    have hnone : ∀ i ∈ db.headerChainTips, ¬ T.forest.Le i b := by
      intro i hi
      simpa using List.find?_eq_none.mp hfind i hi
    obtain ⟨w, u, hrun, hkept, hmod, hcont, hprev, hpath, hsame, hle⟩ :=
      sweep_of_failed (b := b) db.headerChainTips
        ⟨[], db.headersChain, v, false, false, false⟩ t ht
    simp only [Bool.false_or, List.nil_append] at hkept hmod hcont hprev hle
    simp only [hrun]
    obtain ⟨r, db', hsel, hfailed, htips, hpath'⟩ := selectChain_spec (T := T)
      { db with
        headerChainTips := if (w.modified && !w.alreadyContains) = true
          then w.kept ++ [w.validPrev] else w.kept
        headersChain := w.headersChain } hpath b w.validPrev w.modifyingMainChain
    refine ⟨r, db', _, hsel, hfailed, hpath', .pruned hnone ?_ ?_ ?_⟩
    · rw [htips]
      simp only [hmod, hcont, Bool.and_eq_true, Bool.not_eq_true', decide_eq_true_eq,
        decide_eq_false_iff_not, hkept]
      by_cases h : (∃ i ∈ db.headerChainTips, T.forest.Le b i) ∧
          ¬ ∃ i ∈ survivors T b db.headerChainTips, T.forest.Le v i
      · have hstay : w.validPrev = v := by
          rw [hprev]
          exact foldl_climb_of_not_le fun i hi hvi => h.2 ⟨i, hi, hvi⟩
        rw [if_pos h, if_pos h, hstay]
      · rw [if_neg h, if_neg h, List.append_nil]
    · intro h
      rw [hsame h, hprev, fallback]
    · intro h
      have hu := hle (.inr h)
      rw [fallback, ← hprev]
      split
      · exact ⟨Forest.Le.refl _, Nat.le_refl _⟩
      · rename_i hw
        exact ⟨hu, Nat.not_lt.mp hw⟩

section Outcomes

variable {db db' : DB ι} {b v t t' : ι}

/-- What a call with a failed header that does not fail an assertion has found. -/
theorem appendHeader_failed_inv {r : Bool × DB ι} (hb : db.failed b = true)
    (hempty : db.headersChain.vChain = [] → db.headerChainTips = [])
    (hrun : appendHeader T db b = some r) :
    db.headersChain.vChain ≠ [] ∧ ∃ p v, T.pprev b = some p ∧
      skipFailed T db.failed (T.nHeight p + 1) p = some v := by
  unfold appendHeader at hrun
  cases hp : T.pprev b with
  | none => simp [hb, hp, guard] at hrun
  | some p =>
    cases hv : skipFailed T db.failed (T.nHeight p + 1) p with
    | none => simp [hb, hp, hv, guard] at hrun
    | some v =>
      refine ⟨fun hnil => ?_, p, v, rfl, hv⟩
      simp [hb, hp, guard, hempty hnil, hnil, sweep, selectChain, CChain.tip] at hrun

theorem AnnounceOutcome.mem_tips (h : AnnounceOutcome T db b db') {i : ι}
    (hi : i ∈ db'.headerChainTips) : i = b ∨ i ∈ db.headerChainTips := by
  cases h with
  | known htips _ _ =>
    rw [htips] at hi
    exact .inr hi
  | added htips _ _ =>
    rw [htips] at hi
    rcases List.mem_append.mp hi with hi | hi
    · exact .inr (List.mem_of_mem_eraseP hi)
    · exact .inl (by simpa using hi)

theorem AnnounceOutcome.isPath (h : AnnounceOutcome T db b db') :
    db'.headersChain = db.headersChain ∨ db'.headersChain.IsPath T b := by
  cases h with
  | known _ hchain _ => exact .inl hchain
  | added _ _ hchain =>
    rcases hchain with ⟨hpath, -⟩ | ⟨hsame, -⟩
    · exact .inr hpath
    · exact .inl hsame

theorem FailOutcome.mem_tips (h : FailOutcome T db b v t db' t') {i : ι}
    (hi : i ∈ db'.headerChainTips) : i = v ∨ i ∈ db.headerChainTips := by
  cases h with
  | replaced _ htips _ =>
    rw [htips] at hi
    rcases List.mem_append.mp hi with hi | hi
    · exact .inr (List.mem_of_mem_eraseP hi)
    · exact .inl (by simpa using hi)
  | pruned _ htips _ _ =>
    rw [htips] at hi
    rcases List.mem_append.mp hi with hi | hi
    · exact .inr (mem_survivors.mp hi).1
    · split at hi
      · exact .inl (by simpa using hi)
      · simp at hi

/-- The chain ends where it ended, or at or below `v` or a tip that does not descend from the
failed header. -/
theorem FailOutcome.tip_le (h : FailOutcome T db b v t db' t') :
    t' = t ∨ T.forest.Le t' v ∨ ∃ i ∈ survivors T b db.headerChainTips, T.forest.Le t' i := by
  have hfallback : fallback T b v db.headerChainTips = v ∨
      fallback T b v db.headerChainTips ∈ survivors T b db.headerChainTips := foldl_climb_mem _ _
  cases h with
  | replaced _ _ hchain =>
    rw [hchain]
    split
    · exact .inr (.inl (Forest.Le.refl v))
    · exact .inl rfl
  | pruned _ _ hstays hfalls =>
    have hend : t' = t ∨ T.forest.Le t' (fallback T b v db.headerChainTips) := by
      by_cases hmain : ∃ i ∈ db.headerChainTips, T.forest.Le b i ∧ T.forest.Le i t
      · exact .inr (hfalls hmain).1
      · rw [hstays fun i hi hbi hit => hmain ⟨i, hi, hbi, hit⟩]
        split
        · exact .inr (Forest.Le.refl _)
        · exact .inl rfl
    rcases hend with hend | hend
    · exact .inl hend
    · rcases hfallback with hv | hi
      · rw [hv] at hend
        exact .inr (.inl hend)
      · exact .inr (.inr ⟨_, hi, hend⟩)

end Outcomes

/-! ## The chain stays a path -/

theorem sweep_valid {b : ι} {valid : Bool} : ∀ (tips : List ι) (w w' : Sweep ι),
    w.headersChain.Valid T → sweep T b valid tips w = some w' → w'.headersChain.Valid T := by
  intro tips
  induction tips with
  | nil =>
    intro w w' hw h
    obtain rfl := Option.some.inj h
    exact hw
  | cons i tips ih =>
    intro w w' hw h
    rw [sweep] at h
    by_cases hknown : T.getAncestor i (T.nHeight b) = some b
    · rw [if_pos hknown] at h
      cases valid with
      | true => cases h
      | false =>
        refine ih _ _ ?_ h
        dsimp only
        split_ifs
        · exact (CChain.setTip_isPath hw _).valid
        · exact hw
    · rw [if_neg hknown] at h
      by_cases habove : T.getAncestor i (T.nHeight w.validPrev) = some w.validPrev
      · rw [if_pos habove] at h
        refine ih _ _ ?_ h
        exact hw
      · rw [if_neg habove] at h
        refine ih _ _ ?_ h
        exact hw

theorem selectChain_valid {db : DB ι} {b v : ι} {m : Bool} {r : Bool × DB ι}
    (hc : db.headersChain.Valid T) (h : selectChain T db b v m = some r) :
    r.2.headersChain.Valid T := by
  obtain ⟨tip, -, rfl⟩ := Option.map_eq_some_iff.mp h
  split_ifs
  · exact (CChain.setTip_isPath hc v).valid
  · exact hc

/-- The headers chain stays a path. -/
theorem appendHeader_valid {db : DB ι} {b : ι} {r : Bool × DB ι} (hc : db.headersChain.Valid T)
    (h : appendHeader T db b = some r) : r.2.headersChain.Valid T := by
  unfold appendHeader at h
  obtain ⟨-, -, h⟩ := Option.bind_eq_some_iff.mp h
  dsimp only at h
  by_cases hknown : (!db.failed b && db.headersChain.contains T b) = true
  · rw [if_pos hknown] at h
    obtain rfl := Option.some.inj h
    exact hc
  · rw [if_neg hknown] at h
    -- a valid block starts at itself, a failed one at its parent
    split at h
    all_goals
      obtain ⟨start, -, h⟩ := Option.bind_eq_some_iff.mp h
      obtain ⟨validPrev, -, h⟩ := Option.bind_eq_some_iff.mp h
      split at h
      · split_ifs at h
        · obtain rfl := Option.some.inj h
          exact (CChain.setTip_isPath hc validPrev).valid
        · refine selectChain_valid ?_ h
          exact hc
      · split at h
        · obtain rfl := Option.some.inj h
          exact hc
        · rename_i w hw
          have hsweep := sweep_valid _ _ _ hc hw
          by_cases hfirst : (!db.failed b && w.headersChain.height == -1) = true
          · rw [if_pos hfirst] at h
            obtain rfl := Option.some.inj h
            exact (CChain.setTip_isPath hsweep b).valid
          · rw [if_neg hfirst] at h
            refine selectChain_valid ?_ h
            exact hsweep

end Blocks
