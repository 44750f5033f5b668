/-
# Runs of header announcements

A run is a sequence of `appendHeader` calls: valid headers are announced, in any order,
and headers that were announced before are announced again after failure flags were set
on them and on what is known to descend from them, as `handleFailedBlock` does.

`Good` are the headers without a failed block on their path to genesis, among those
seen so far.  A header is seen when it or a descendant of it is announced.  `Inv` holds
between the calls as long as no call finds a tip list in which one tip is above another:
the tips are good headers, and every good header is at or below a tip.
-/
import Hub.BlocksDB
import Hub.Runs
import Mathlib.Data.Fintype.Basic

namespace Blocks

variable {ι : Type} [DecidableEq ι]

/-! ## States and events -/

/-- The database, and the headers that were announced. -/
structure HeaderState (ι : Type) where
  db : DB ι
  announced : List ι

/-- Nothing is announced yet. -/
def HeaderState.initial (failed : ι → Bool) : HeaderState ι := ⟨DB.empty failed, []⟩

/-- Set failure flags. -/
def DB.mark (db : DB ι) (marked : List ι) : DB ι :=
  { db with failed := fun x => db.failed x || decide (x ∈ marked) }

inductive HeaderEvent (ι : Type) where
  /-- Announce a valid header. -/
  | announce (b : ι)
  /-- Set failure flags on `marked` and announce `b` again. -/
  | fail (b : ι) (marked : List ι)
  deriving DecidableEq

variable (T : BlockIndex ι)

def step (s : HeaderState ι) : HeaderEvent ι → Option (HeaderState ι)
  | .announce b => (appendHeader T s.db b).map fun r => ⟨r.2, b :: s.announced⟩
  | .fail b marked => (appendHeader T (s.db.mark marked) b).map fun r => ⟨r.2, s.announced⟩

/-- `x` or a descendant of it is announced. -/
def Known (announced : List ι) (x : ι) : Prop := ∃ a ∈ announced, T.forest.Le x a

/-- There is no failed block on the path from `x` to genesis. -/
def Sound (failed : ι → Bool) (x : ι) : Prop := ∀ y, T.forest.Le y x → failed y = false

/-- The headers to choose from. -/
def Good (failed : ι → Bool) (announced : List ι) (x : ι) : Prop :=
  Known T announced x ∧ Sound T failed x

/-- What the callers of `appendHeader` see to: announced headers have no failed block on
their path; the genesis block is not marked; and when a header is marked, so are its
known descendants, and nothing else. -/
def Legal (s : HeaderState ι) : HeaderEvent ι → Prop
  | .announce b => Sound T s.db.failed b
  | .fail b marked => b ∈ s.announced ∧ (T.pprev b).isSome ∧
      (∀ x ∈ marked, T.forest.Le b x) ∧
      ∀ x, Known T s.announced x → T.forest.Le b x → s.db.failed x = true ∨ x ∈ marked

section Decidable

variable [Fintype ι] (failed : ι → Bool) (announced : List ι)

instance (x : ι) : Decidable (Known T announced x) :=
  inferInstanceAs (Decidable (∃ a ∈ announced, T.forest.Le x a))

instance (x : ι) : Decidable (Sound T failed x) :=
  inferInstanceAs (Decidable (∀ y, T.forest.Le y x → failed y = false))

instance (x : ι) : Decidable (Good T failed announced x) :=
  inferInstanceAs (Decidable (Known T announced x ∧ Sound T failed x))

instance (s : HeaderState ι) : ∀ e : HeaderEvent ι, Decidable (Legal T s e)
  | .announce b => inferInstanceAs (Decidable (Sound T s.db.failed b))
  | .fail b marked => inferInstanceAs (Decidable (b ∈ s.announced ∧ (T.pprev b).isSome ∧
      (∀ x ∈ marked, T.forest.Le b x) ∧
      ∀ x, Known T s.announced x → T.forest.Le b x → s.db.failed x = true ∨ x ∈ marked))

end Decidable

/-! ## Flags -/

/-- No known root is failed, and known descendants of failed blocks are failed. -/
structure FlagsOk (failed : ι → Bool) (announced : List ι) : Prop where
  roots : ∀ r, Known T announced r → T.pprev r = none → failed r = false
  closed : ∀ x y, Known T announced y → T.forest.Le x y → failed x = true → failed y = true

variable {T} {failed : ι → Bool} {announced : List ι} {b p v t x y : ι}

omit [DecidableEq ι]

theorem Known.of_le (h : Known T announced y) (hle : T.forest.Le x y) : Known T announced x := by
  obtain ⟨a, ha, hya⟩ := h
  exact ⟨a, ha, hle.trans hya⟩

theorem known_of_mem (h : b ∈ announced) : Known T announced b := ⟨b, h, Forest.Le.refl b⟩

theorem not_known_nil : ¬ Known T [] x := by simp [Known]

theorem known_cons : Known T (b :: announced) x ↔ T.forest.Le x b ∨ Known T announced x := by
  simp [Known]

theorem FlagsOk.good_iff (h : FlagsOk T failed announced) :
    Good T failed announced x ↔ Known T announced x ∧ failed x = false := by
  constructor
  · rintro ⟨hk, hs⟩
    exact ⟨hk, hs x (Forest.Le.refl x)⟩
  · rintro ⟨hk, hx⟩
    refine ⟨hk, fun y hy => ?_⟩
    by_contra hc
    have := h.closed y x hk hy (by simpa using hc)
    rw [hx] at this
    cases this

theorem Good.of_le (h : Good T failed announced y) (hle : T.forest.Le x y) :
    Good T failed announced x :=
  ⟨h.1.of_le hle, fun z hz => h.2 z (hz.trans hle)⟩

/-- Announcing a sound header `b`. -/
theorem FlagsOk.announce (h : FlagsOk T failed announced) (hb : Sound T failed b) :
    FlagsOk T failed (b :: announced) where
  roots := by
    intro r hr hroot
    rcases known_cons.mp hr with hle | hk
    · exact hb r hle
    · exact h.roots r hk hroot
  closed := by
    intro x y hy hxy hx
    rcases known_cons.mp hy with hle | hk
    · rw [hb x (hxy.trans hle)] at hx
      cases hx
    · exact h.closed x y hk hxy hx

theorem good_announce (hb : Sound T failed b) :
    Good T failed (b :: announced) x ↔ T.forest.Le x b ∨ Good T failed announced x := by
  constructor
  · rintro ⟨hk, hs⟩
    rcases known_cons.mp hk with hle | hk
    · exact .inl hle
    · exact .inr ⟨hk, hs⟩
  · rintro (hle | ⟨hk, hs⟩)
    · exact ⟨known_cons.mpr (.inl hle), fun y hy => hb y (hy.trans hle)⟩
    · exact ⟨known_cons.mpr (.inr hk), hs⟩

section Marking

variable [DecidableEq ι] {s : HeaderState ι} {marked : List ι}

theorem mark_failed_iff {db : DB ι} :
    (db.mark marked).failed x = true ↔ db.failed x = true ∨ x ∈ marked := by
  simp [DB.mark]

theorem mark_failed_eq_false {db : DB ι} :
    (db.mark marked).failed x = false ↔ db.failed x = false ∧ x ∉ marked := by
  simp [DB.mark]

/-- Marking a header and its known descendants. -/
theorem FlagsOk.mark (h : FlagsOk T s.db.failed s.announced) (hl : Legal T s (.fail b marked)) :
    FlagsOk T (s.db.mark marked).failed s.announced where
  roots := by
    intro r hr hroot
    refine mark_failed_eq_false.mpr ⟨h.roots r hr hroot, fun hm => ?_⟩
    obtain rfl := Forest.eq_of_le_root (F := T.forest) hroot (hl.2.2.1 r hm)
    have hsome := hl.2.1
    rw [hroot] at hsome
    cases hsome
  closed := by
    intro x y hy hxy hx
    rcases mark_failed_iff.mp hx with hf | hm
    · exact mark_failed_iff.mpr (.inl (h.closed x y hy hxy hf))
    · exact mark_failed_iff.mpr (hl.2.2.2 y hy ((hl.2.2.1 x hm).trans hxy))

/-- Marking takes away what is at or above the marked header. -/
theorem good_mark (hl : Legal T s (.fail b marked)) :
    Good T (s.db.mark marked).failed s.announced x ↔
      Good T s.db.failed s.announced x ∧ ¬ T.forest.Le b x := by
  constructor
  · rintro ⟨hk, hs⟩
    refine ⟨⟨hk, fun y hy => (mark_failed_eq_false.mp (hs y hy)).1⟩, fun hbx => ?_⟩
    have hb := hl.2.2.2 b (known_of_mem hl.1) (Forest.Le.refl b)
    have := hs b hbx
    rw [mark_failed_iff.mpr hb] at this
    cases this
  · rintro ⟨⟨hk, hs⟩, hbx⟩
    refine ⟨hk, fun y hy => mark_failed_eq_false.mpr ⟨hs y hy, fun hm => ?_⟩⟩
    exact hbx ((hl.2.2.1 y hm).trans hy)

/-- The search for `validPrev` below a marked header `b` ends at the highest block
below `b` that is still good. -/
theorem exists_validPrev (h : FlagsOk T s.db.failed s.announced)
    (hl : Legal T s (.fail b marked)) (hp : T.pprev b = some p) :
    ∃ v, skipFailed T (s.db.mark marked).failed (T.nHeight p + 1) p = some v ∧
      T.forest.Le v p ∧ Good T (s.db.mark marked).failed s.announced v ∧
      ∀ x, T.forest.Le x b → Good T (s.db.mark marked).failed s.announced x →
        T.forest.Le x v := by
  have hflags := h.mark hl
  have hpb : T.forest.Le p b := Forest.Le.of_parent hp
  have hknown : Known T s.announced p := (known_of_mem hl.1).of_le hpb
  obtain ⟨r, hr⟩ := Forest.ancestor?_isSome (F := T.forest) (b := p) (Nat.zero_le _)
  obtain ⟨hrp, hr0⟩ := Forest.ancestor?_eq_some_iff.mp hr
  have hroot : T.pprev r = none := by
    cases hpr : T.pprev r with
    | none => rfl
    | some q =>
      have := T.height_child r q hpr
      change T.nHeight r = 0 at hr0
      omega
  have hrf := hflags.roots r (hknown.of_le hrp) hroot
  obtain ⟨v, hv, hvp, hvf, hmax⟩ := skipFailed_spec hrf (T.nHeight p + 1) p (by omega) hrp
  refine ⟨v, hv, hvp, hflags.good_iff.mpr ⟨hknown.of_le hvp, hvf⟩, fun x hxb hx => ?_⟩
  rcases (Forest.le_iff_of_parent (F := T.forest) hp).mp hxb with rfl | hxp
  · exact absurd (Forest.Le.refl x) ((good_mark hl).mp hx).2
  · exact hmax x hxp (hflags.good_iff.mp hx).2

/-- Below a header that was good there is its parent. -/
theorem validPrev_eq_parent (h : FlagsOk T s.db.failed s.announced)
    (hl : Legal T s (.fail b marked)) (hp : T.pprev b = some p) (hb : s.db.failed b = false)
    (hvp : T.forest.Le v p) (hmax : ∀ x, T.forest.Le x b →
      Good T (s.db.mark marked).failed s.announced x → T.forest.Le x v) : v = p := by
  have hpb : T.forest.Le p b := Forest.Le.of_parent hp
  have hgood : Good T s.db.failed s.announced b := h.good_iff.mpr ⟨known_of_mem hl.1, hb⟩
  refine hvp.antisymm (hmax p hpb ((good_mark hl).mpr ⟨hgood.of_le hpb, ?_⟩))
  exact Forest.not_le_parent (F := T.forest) hp

end Marking

/-! ## The invariant -/

section Invariant

variable [DecidableEq ι]

/-- Between the calls: the tips are good, they cover the good headers, and the chain
is the path to a known header. -/
structure Inv (T : BlockIndex ι) (s : HeaderState ι) : Prop where
  flags : FlagsOk T s.db.failed s.announced
  chain : (s.announced = [] ∧ s.db.headersChain.vChain = [] ∧ s.db.headerChainTips = []) ∨
    ∃ t, s.db.headersChain.IsPath T t ∧ Known T s.announced t
  sub : ∀ x ∈ s.db.headerChainTips, Good T s.db.failed s.announced x
  covers : T.forest.Covers (Good T s.db.failed s.announced) s.db.headerChainTips

omit [DecidableEq ι] in
theorem inv_initial (failed : ι → Bool) : Inv T (HeaderState.initial failed) where
  flags := ⟨fun _ h => absurd h not_known_nil, fun _ _ h => absurd h not_known_nil⟩
  chain := .inl ⟨rfl, rfl, rfl⟩
  sub := fun _ h => absurd h List.not_mem_nil
  covers := fun _ h => absurd h.1 not_known_nil

variable {s : HeaderState ι} {marked : List ι}

omit [DecidableEq ι] in
theorem Inv.chain_valid (h : Inv T s) : s.db.headersChain.Valid T := by
  rcases h.chain with ⟨-, hnil, -⟩ | ⟨t, ht, -⟩
  · exact .inl hnil
  · exact .inr ⟨t, ht⟩

omit [DecidableEq ι] in
/-- Once a header is announced, the chain has a tip. -/
theorem Inv.exists_path (h : Inv T s) (hne : s.announced ≠ []) :
    ∃ t, s.db.headersChain.IsPath T t ∧ Known T s.announced t := by
  rcases h.chain with ⟨hnil, -, -⟩ | hex
  · exact absurd hnil hne
  · exact hex

/-- A step that announces a valid header. -/
theorem Inv.announce (h : Inv T s) (hl : Legal T s (.announce b)) :
    ∃ s', step T s (.announce b) = some s' ∧ s'.announced = b :: s.announced ∧
      s'.db.failed = s.db.failed ∧ AnnounceOutcome T s.db b s'.db ∧ Inv T s' := by
  have hempty : s.db.headersChain.vChain = [] → s.db.headerChainTips = [] := by
    intro hnil
    rcases h.chain with ⟨-, -, htips⟩ | ⟨t, ht, -⟩
    · exact htips
    · have hne := ht.height_ne
      simp [CChain.height, hnil] at hne
  obtain ⟨r, db', hrun, hfailed, hout⟩ :=
    appendHeader_of_valid (hl b (Forest.Le.refl b)) h.chain_valid hempty
  refine ⟨⟨db', b :: s.announced⟩, by rw [step, hrun]; rfl, rfl, hfailed, hout, ?_⟩
  have hgood : ∀ x, Good T db'.failed (b :: s.announced) x ↔
      T.forest.Le x b ∨ Good T s.db.failed s.announced x := by
    intro x
    rw [hfailed]
    exact good_announce hl
  refine ⟨by simp only [hfailed]; exact h.flags.announce hl, ?_, ?_, ?_⟩
  · -- the chain ends at `b` or where it did
    right
    have hkeep : ∀ {t}, s.db.headersChain.IsPath T t → Known T (b :: s.announced) t := by
      intro t ht
      rcases h.chain with ⟨-, hnil, -⟩ | ⟨u, hu, hk⟩
      · have hne := ht.height_ne
        simp [CChain.height, hnil] at hne
      · obtain rfl : t = u := Option.some.inj (ht.tip_eq.symm.trans hu.tip_eq)
        exact known_cons.mpr (.inr hk)
    cases hout with
    | known htips hchain hknown =>
      simp only [hchain]
      rcases h.chain with ⟨-, hnil, htip⟩ | ⟨t, ht, -⟩
      · rcases hknown with hc | ⟨i, hi, -⟩
        · simp [CChain.contains, hnil] at hc
        · rw [htip] at hi
          cases hi
      · exact ⟨t, ht, hkeep ht⟩
    | added htips hfork hchain =>
      rcases hchain with ⟨hpath, -⟩ | ⟨hsame, t, ht, -⟩
      · exact ⟨b, hpath, known_of_mem (by simp)⟩
      · simp only [hsame]
        exact ⟨t, ht, hkeep ht⟩
  · intro x hx
    rw [hgood]
    cases hout with
    | known htips hchain hknown =>
      rw [htips] at hx
      exact .inr (h.sub x hx)
    | added htips hfork hchain =>
      rw [htips] at hx
      rcases List.mem_append.mp hx with hx | hx
      · exact .inr (h.sub x (List.mem_of_mem_eraseP hx))
      · obtain rfl : x = b := by simpa using hx
        exact .inl (Forest.Le.refl x)
  · intro x hx
    rw [hgood] at hx
    cases hout with
    | known htips hchain hknown =>
      rw [htips]
      have hb : Known T s.announced b := by
        rcases hknown with hc | ⟨i, hi, hbi⟩
        · rcases h.chain with ⟨-, hnil, -⟩ | ⟨t, ht, hk⟩
          · simp [CChain.contains, hnil] at hc
          · exact hk.of_le (ht.contains_iff.mp hc)
        · exact (h.sub i hi).1.of_le hbi
      rcases hx with hx | hx
      · exact h.covers x (Good.of_le ⟨hb, hl⟩ hx)
      · exact h.covers x hx
    | added htips hfork hchain =>
      rw [htips]
      rcases hx with hx | hx
      · exact ⟨b, by simp, hx⟩
      · obtain ⟨i, hi, hxi⟩ := h.covers x hx
        by_cases hib : T.forest.Le i b
        · exact ⟨b, by simp, hxi.trans hib⟩
        · exact ⟨i, by simp [List.mem_eraseP_of_neg, hib, hi], hxi⟩

omit [DecidableEq ι] in
/-- The first element that satisfies a predicate is not in what remains without it. -/
theorem not_mem_eraseP_of_find? {q : ι → Bool} : ∀ {l : List ι}, l.Nodup →
    l.find? q = some x → x ∉ l.eraseP q := by
  intro l
  induction l with
  | nil =>
    intro _ h
    cases h
  | cons i l ih =>
    intro hl hfind
    rw [List.nodup_cons] at hl
    by_cases hq : q i = true
    · rw [List.find?_cons_of_pos hq] at hfind
      obtain rfl : i = x := Option.some.inj hfind
      rw [List.eraseP_cons_of_pos hq]
      exact hl.1
    · rw [List.find?_cons_of_neg hq] at hfind
      rw [List.eraseP_cons_of_neg hq, List.mem_cons]
      rintro (rfl | hmem)
      · exact hq (List.find?_some hfind)
      · exact ih hl.2 hfind hmem

/-- In an antichain at most one element is at or below `b`, so none is left after
taking out the first. -/
theorem not_le_of_mem_eraseP {L : List ι} (hL : T.forest.Incomparable L)
    (hx : x ∈ L.eraseP fun i => T.forest.Le i b) : ¬ T.forest.Le x b := by
  intro hxb
  have hmem := List.mem_of_mem_eraseP hx
  cases hfind : L.find? fun i => T.forest.Le i b with
  | none =>
    have := List.find?_eq_none.mp hfind x hmem
    simp [hxb] at this
  | some i =>
    have hi := List.mem_of_find?_eq_some hfind
    have hib : T.forest.Le i b := by simpa using List.find?_some hfind
    have heq : i = x := by
      rcases hib.comparable hxb with h | h
      · exact hL.eq_of_le hi hmem h
      · exact (hL.eq_of_le hmem hi h).symm
    rw [heq] at hfind
    exact not_mem_eraseP_of_find? hL.nodup hfind hx

omit [DecidableEq ι] in
/-- If `b` is good and the tips form an antichain, then `b` is the only tip that can be
at or below it. -/
theorem Inv.tip_eq_of_le (h : Inv T s) (hinc : T.forest.Incomparable s.db.headerChainTips)
    (hb : Good T s.db.failed s.announced b) (hx : x ∈ s.db.headerChainTips)
    (hxb : T.forest.Le x b) : x = b := by
  obtain ⟨i, hi, hbi⟩ := h.covers b hb
  obtain rfl := hinc.eq_of_le hx hi (hxb.trans hbi)
  exact hxb.antisymm hbi

section Fail

/-! The three parts of the invariant after a header `b` failed and the chain fell back from
`t` to `t'`. -/

variable {v t t' : ι} {db' : DB ι} (h : Inv T s) (hl : Legal T s (.fail b marked))
  (hfailed : db'.failed = (s.db.mark marked).failed)
  (hvg : Good T (s.db.mark marked).failed s.announced v)
  (hout : FailOutcome T (s.db.mark marked) b v t db' t')

include h hvg hout

theorem Inv.known_of_fail (htk : Known T s.announced t) : Known T s.announced t' := by
  have hfall : Known T s.announced (fallback T b v s.db.headerChainTips) := by
    rcases foldl_climb_mem (T := T) (survivors T b s.db.headerChainTips) v with heq | hmem
    · rw [fallback, heq]
      exact hvg.1
    · exact (h.sub _ (mem_survivors.mp hmem).1).1
  cases hout with
  | replaced hfind htips hchain =>
    rw [hchain]
    split
    · exact hvg.1
    · exact htk
  | pruned hnone htips hstays hfalls =>
    by_cases hmain : ∃ i ∈ s.db.headerChainTips, T.forest.Le b i ∧ T.forest.Le i t
    · exact hfall.of_le (hfalls hmain).1
    · rw [hstays fun i hi hbi hit => hmain ⟨i, hi, hbi, hit⟩]
      split
      · exact hfall
      · exact htk

include hl hfailed

theorem Inv.sub_of_fail
    (hinc : s.db.failed b = false → T.forest.Incomparable s.db.headerChainTips) :
    ∀ x ∈ db'.headerChainTips, Good T db'.failed s.announced x := by
  intro x hx
  have hgood : Good T s.db.failed s.announced x → ¬ T.forest.Le b x →
      Good T db'.failed s.announced x := by
    intro hxg hbx
    rw [hfailed]
    exact (good_mark hl).mpr ⟨hxg, hbx⟩
  have hvg' : Good T db'.failed s.announced v := by
    rw [hfailed]
    exact hvg
  cases hout with
  | @replaced tip hfind htips hchain =>
    rw [htips] at hx
    rcases List.mem_append.mp hx with hx | hx
    · have hmem := List.mem_of_mem_eraseP hx
      refine hgood (h.sub x hmem) fun hbx => ?_
      by_cases hbf : s.db.failed b = true
      · have := h.flags.closed b x (h.sub x hmem).1 hbx hbf
        rw [(h.flags.good_iff.mp (h.sub x hmem)).2] at this
        cases this
      · -- the tip that was found is `b`, and nothing else is above it
        have hanti := hinc (by simpa using hbf)
        have hbg : Good T s.db.failed s.announced b :=
          h.flags.good_iff.mpr ⟨known_of_mem hl.1, by simpa using hbf⟩
        have htip := List.mem_of_find?_eq_some hfind
        have htb : T.forest.Le tip b := by simpa using List.find?_some hfind
        obtain rfl := h.tip_eq_of_le hanti hbg htip htb
        obtain rfl := hanti.eq_of_le htip hmem hbx
        exact not_le_of_mem_eraseP hanti hx htb
    · obtain rfl : x = v := by simpa using hx
      exact hvg'
  | pruned hnone htips hstays hfalls =>
    rw [htips] at hx
    rcases List.mem_append.mp hx with hx | hx
    · obtain ⟨hmem, hbx⟩ := mem_survivors.mp hx
      exact hgood (h.sub x hmem) hbx
    · split at hx
      · obtain rfl : x = v := by simpa using hx
        exact hvg'
      · cases hx

omit hvg in
theorem Inv.covers_of_fail (hmax : ∀ x, T.forest.Le x b →
      Good T (s.db.mark marked).failed s.announced x → T.forest.Le x v) :
    ∀ x, Good T db'.failed s.announced x → ∃ i ∈ db'.headerChainTips, T.forest.Le x i := by
  intro x hx
  rw [hfailed] at hx
  obtain ⟨hxg, hbx⟩ := (good_mark hl).mp hx
  obtain ⟨i, hi, hxi⟩ := h.covers x hxg
  cases hout with
  | replaced hfind htips hchain =>
    rw [htips]
    by_cases hib : T.forest.Le i b
    · exact ⟨v, by simp, hmax x (hxi.trans hib) hx⟩
    · exact ⟨i, List.mem_append_left _ ((List.mem_eraseP_of_neg (by simpa using hib)).mpr hi),
        hxi⟩
  | pruned hnone htips hstays hfalls =>
    rw [htips]
    by_cases hbi : T.forest.Le b i
    · -- the tip above goes away, and `x` is not above `b`
      have hxv : T.forest.Le x v := by
        rcases hxi.comparable hbi with hxb | hbx'
        · exact hmax x hxb hx
        · exact absurd hbx' hbx
      by_cases hcov : ∃ j ∈ survivors T b s.db.headerChainTips, T.forest.Le v j
      · obtain ⟨j, hj, hvj⟩ := hcov
        exact ⟨j, List.mem_append_left _ hj, hxv.trans hvj⟩
      · refine ⟨v, List.mem_append_right _ ?_, hxv⟩
        rw [if_pos ⟨⟨i, hi, hbi⟩, hcov⟩]
        simp
    · exact ⟨i, List.mem_append_left _ (mem_survivors.mpr ⟨hi, hbi⟩), hxi⟩

end Fail

/-- A step that announces a failed header.  If the header was good until now, the tips
must form an antichain. -/
theorem Inv.fail (h : Inv T s) (hl : Legal T s (.fail b marked))
    (hinc : s.db.failed b = false → T.forest.Incomparable s.db.headerChainTips) :
    ∃ s' p v t t', step T s (.fail b marked) = some s' ∧ s'.announced = s.announced ∧
      s'.db.failed = (s.db.mark marked).failed ∧ T.pprev b = some p ∧
      s.db.headersChain.IsPath T t ∧ s'.db.headersChain.IsPath T t' ∧
      T.forest.Le v p ∧ Good T (s.db.mark marked).failed s.announced v ∧
      (∀ x, T.forest.Le x b → Good T (s.db.mark marked).failed s.announced x →
        T.forest.Le x v) ∧
      FailOutcome T (s.db.mark marked) b v t s'.db t' ∧ Inv T s' := by
  obtain ⟨p, hp⟩ := Option.isSome_iff_exists.mp hl.2.1
  obtain ⟨t, ht, htk⟩ := h.exists_path (List.ne_nil_of_mem hl.1)
  obtain ⟨v, hv, hvp, hvg, hmax⟩ := exists_validPrev h.flags hl hp
  have hb : (s.db.mark marked).failed b = true :=
    mark_failed_iff.mpr (hl.2.2.2 b (known_of_mem hl.1) (Forest.Le.refl b))
  obtain ⟨r, db', t', hrun, hfailed, hpath, hout⟩ :=
    appendHeader_of_failed hb hp hv ht
  refine ⟨⟨db', s.announced⟩, p, v, t, t', by rw [step, hrun]; rfl, rfl, hfailed, hp, ht,
    hpath, hvp, hvg, hmax, hout, ?_⟩
  refine ⟨?_, .inr ⟨t', hpath, h.known_of_fail hvg hout htk⟩,
    h.sub_of_fail hl hfailed hvg hout hinc, h.covers_of_fail hl hfailed hout hmax⟩
  simp only [hfailed]
  exact h.flags.mark hl

end Invariant

end Blocks
