/-
# Loading the block index

At startup `LoadBlockIndexDB` (`libs/server/main.cpp`) reads the block index from disk.
`CacheAllBlockInfos` (`libs/server/BlocksDB.cpp`) reads the rows into a hash map, calls
`BuildSkip` on all entries and announces all of them by `appendHeader`, both in the order of
the hash map.  Only then does `LoadBlockIndexDB` go through the entries by height and fill in
`nChainWork`.

So `appendHeader` compares numbers that are all zero.  The headers chain starts at the first
entry of the hash map and only ever moves to an entry above the one at which it ends, whatever
the work of the other branches (`cacheAllBlockInfos_eq`); and when the first entry has failed,
there is no chain yet that it could be taken from, which is an assertion.

`loadsBest_iff` says when the chain nevertheless ends at a header with the most work.
-/
import Hub.BlockProof
import Hub.ForestClimb
import Hub.HeaderFrontier
import Hub.SkipList
import Mathlib

namespace Blocks

/-! ## Announcing headers without work -/

section ZeroWork

variable {ι : Type} [DecidableEq ι] {T : BlockIndex ι} {failed : ι → Bool} {db : DB ι} {t v x : ι}

/-- The headers chain ends at `t`, which is one of the tips; the tips are valid, and none is
above another. -/
structure Settled (T : BlockIndex ι) (failed : ι → Bool) (db : DB ι) (t : ι) : Prop where
  flags : db.failed = failed
  path : db.headersChain.IsPath T t
  incomparable : T.forest.Incomparable db.headerChainTips
  mem : t ∈ db.headerChainTips
  unfailed : ∀ i ∈ db.headerChainTips, failed i = false

omit [DecidableEq ι] in
/-- Only one tip can be at or below a block. -/
theorem Settled.eq_of_le (h : Settled T failed db t) {i : ι} (hi : i ∈ db.headerChainTips)
    (hix : T.forest.Le i x) (htx : T.forest.Le t x) : i = t := by
  rcases hix.comparable htx with hle | hle
  · exact h.incomparable.eq_of_le hi h.mem hle
  · exact (h.incomparable.eq_of_le h.mem hi hle).symm

theorem Settled.find?_eq (h : Settled T failed db t) (htx : T.forest.Le t x) :
    db.headerChainTips.find? (fun i => T.forest.Le i x) = some t := by
  cases hfind : db.headerChainTips.find? fun i => T.forest.Le i x with
  | none =>
    have := List.find?_eq_none.mp hfind t h.mem
    simp [htx] at this
  | some i =>
    have hi := List.mem_of_find?_eq_some hfind
    have hix : T.forest.Le i x := by simpa using List.find?_some hfind
    rw [h.eq_of_le hi hix htx]

/-- A valid header above the tip of the chain becomes the tip. -/
theorem Settled.appendHeader_above (h : Settled T failed db t) (hx : failed x = false)
    (htx : T.forest.Le t x) (hne : ¬ T.forest.Le x t) :
    appendHeader T db x = some (true, { db with
      headerChainTips := db.headerChainTips.eraseP (fun i => T.forest.Le i x) ++ [x]
      headersChain := db.headersChain.setTip T x
      pindexBestHeader := some x }) := by
  have hxf : db.failed x = false := by rw [h.flags]; exact hx
  have hskip : skipFailed T db.failed (T.nHeight x + 1) x = some x := by simp [skipFailed, hxf]
  have hin : ¬ db.headersChain.contains T x = true := fun hc => hne (h.path.contains_iff.mp hc)
  unfold appendHeader
  simp only [hxf, Bool.not_false, Bool.true_or, Bool.true_and, guard, if_true, hin,
    Bool.false_eq_true, if_false, hskip, T.getAncestor_eq_some_iff, Option.bind_eq_bind,
    Option.pure_def, Option.bind_some, h.find?_eq htx, h.path.tip_eq]

/-- **Announcing a valid header**: the chain moves to it if it is above. -/
theorem Settled.announce (h : Settled T failed db t) (hzero : ∀ y, T.nChainWork y = 0)
    (hx : failed x = false) :
    ∃ r db', appendHeader T db x = some (r, db') ∧
      Settled T failed db' (T.forest.settle t x) := by
  have hxf : db.failed x = false := by rw [h.flags]; exact hx
  obtain ⟨r, db', hrun, hfailed, hout⟩ := appendHeader_of_valid hxf h.path.valid (fun hnil => by
    have hheight := h.path.height_ne
    simp [CChain.height, hnil] at hheight)
  refine ⟨r, db', hrun, ?_⟩
  have hinc := hout.incomparable h.incomparable
  by_cases htx : T.forest.Le t x
  · rw [show T.forest.settle t x = x from if_pos htx]
    by_cases hxt : T.forest.Le x t
    · -- the header is the tip itself
      obtain rfl := htx.antisymm hxt
      have hin : db.headersChain.contains T t = true :=
        h.path.contains_iff.mpr (Forest.Le.refl t)
      have hsame : appendHeader T db t = some (false, db) := by
        simp [appendHeader, hxf, hin, guard]
      obtain ⟨-, rfl⟩ := Prod.mk.inj (Option.some.inj (hrun.symm.trans hsame))
      exact h
    · obtain ⟨-, rfl⟩ :=
        Prod.mk.inj (Option.some.inj (hrun.symm.trans (h.appendHeader_above hx htx hxt)))
      refine ⟨h.flags, CChain.setTip_isPath h.path.valid x, hinc, by simp, fun i hi => ?_⟩
      rcases List.mem_append.mp hi with hi | hi
      · exact h.unfailed i (List.mem_of_mem_eraseP hi)
      · obtain rfl : i = x := by simpa using hi
        exact hx
  · rw [show T.forest.settle t x = t from if_neg htx]
    cases hout with
    | known htips hchain _ =>
      exact ⟨hfailed.trans h.flags, by rw [hchain]; exact h.path, hinc, by rw [htips]; exact h.mem,
        by rw [htips]; exact h.unfailed⟩
    | added htips _ hchain =>
      refine ⟨hfailed.trans h.flags, ?_, hinc, ?_, ?_⟩
      · rcases hchain with ⟨-, hswitch⟩ | ⟨hsame, -⟩
        · rcases hswitch t h.path with hlt | hle
          · rw [hzero, hzero] at hlt
            omega
          · exact absurd hle htx
        · rw [hsame]
          exact h.path
      · rw [htips]
        exact List.mem_append_left _ ((List.mem_eraseP_of_neg (by simpa using htx)).mpr h.mem)
      · intro i hi
        rw [htips] at hi
        rcases List.mem_append.mp hi with hi | hi
        · exact h.unfailed i (List.mem_of_mem_eraseP hi)
        · obtain rfl : i = x := by simpa using hi
          exact hx

/-- **Announcing a failed header**: the chain moves to the last valid block below it, if
that is above. -/
theorem Settled.announce_failed (h : Settled T failed db t) (hzero : ∀ y, T.nChainWork y = 0)
    (hclosed : ∀ i ∈ db.headerChainTips, ¬ T.forest.Le x i) (hx : failed x = true) {p : ι}
    (hp : T.pprev x = some p) (hv : skipFailed T failed (T.nHeight p + 1) p = some v)
    (hvf : failed v = false) (hvx : T.forest.Le v x)
    (hmax : ∀ y, T.forest.Le y x → failed y = false → T.forest.Le y v) :
    ∃ r db', appendHeader T db x = some (r, db') ∧
      Settled T failed db' (T.forest.settle t v) := by
  obtain ⟨r, db', t', hrun, hfailed, hpath, hout⟩ :=
    appendHeader_of_failed (by rw [h.flags]; exact hx) hp (by rw [h.flags]; exact hv) h.path
  refine ⟨r, db', hrun, ?_⟩
  cases hout with
  | @replaced tip hfind htips hchain =>
    have htip := List.mem_of_find?_eq_some hfind
    have htipx : T.forest.Le tip x := by simpa using List.find?_some hfind
    have htipv : T.forest.Le tip v := hmax tip htipx (h.unfailed tip htip)
    have hend : t' = T.forest.settle t v := by
      rw [hchain, hzero, hzero]
      unfold Forest.settle
      by_cases htv : T.forest.Le t v
      · rw [if_pos htv, if_pos (.inl (h.eq_of_le htip htipv htv))]
      · rw [if_neg htv, if_neg]
        rintro (rfl | hlt)
        · exact htv htipv
        · omega
    rw [← hend]
    have hinc : T.forest.Incomparable db'.headerChainTips := by
      rw [htips]
      refine (Forest.incomparable_append_singleton
        (h.incomparable.sublist List.eraseP_sublist)).mpr fun y hy => ?_
      have hyx := not_le_of_mem_eraseP h.incomparable hy
      refine ⟨fun hyv => hyx (hyv.trans hvx), fun hvy => hyx ?_⟩
      rw [← h.incomparable.eq_of_le htip (List.mem_of_mem_eraseP hy) (htipv.trans hvy)]
      exact htipx
    refine ⟨hfailed.trans h.flags, hpath, hinc, ?_, fun i hi => ?_⟩
    · rw [htips, hend]
      unfold Forest.settle
      split
      · simp
      · next htv =>
        have htx : ¬ T.forest.Le t x := fun htx => htv (hmax t htx (h.unfailed t h.mem))
        exact List.mem_append_left _ ((List.mem_eraseP_of_neg (by simpa using htx)).mpr h.mem)
    · rw [htips] at hi
      rcases List.mem_append.mp hi with hi | hi
      · exact h.unfailed i (List.mem_of_mem_eraseP hi)
      · obtain rfl : i = v := by simpa using hi
        exact hvf
  | pruned hnone htips hstays _ =>
    have htv : ¬ T.forest.Le t v := fun htv => hnone t h.mem (htv.trans hvx)
    have hend : t' = t := by
      rw [hstays fun i hi hxi => absurd hxi (hclosed i hi), hzero, hzero, if_neg (by omega)]
    have hsame : db'.headerChainTips = db.headerChainTips := by
      have hsurv : survivors T x db.headerChainTips = db.headerChainTips :=
        List.filter_eq_self.mpr fun i hi => by simpa using hclosed i hi
      rw [htips, if_neg, List.append_nil, hsurv]
      rintro ⟨⟨i, hi, hxi⟩, -⟩
      exact hclosed i hi hxi
    rw [show T.forest.settle t v = t from if_neg htv]
    refine ⟨hfailed.trans h.flags, by rw [← hend]; exact hpath, ?_, ?_, ?_⟩
    · rw [hsame]
      exact h.incomparable
    · rw [hsame]
      exact h.mem
    · rw [hsame]
      exact h.unfailed

end ZeroWork

/-! ## The database -/

/-- `CDiskBlockIndex`, with the flag `nStatus & BLOCK_FAILED_MASK`.  The null hash, which
genesis has as its `hashPrev`, is `none`. -/
structure CDiskBlockIndex (ι : Type) where
  hash : ι
  hashPrev : Option ι
  nHeight : ℕ
  failed : Bool
  nBits : UInt32

/-- A block index on disk: a tree over one genesis block in which what descends from a
failed block has failed.  The rows are in the order of the hash map that they are read into. -/
structure BlockIndexDB (ι : Type) where
  rows : List (CDiskBlockIndex ι)
  nonempty : rows ≠ []
  nodup : (rows.map (·.hash)).Nodup
  genesis : ∀ r ∈ rows, r.hashPrev = none → r.nHeight = 0
  genesis_unique : ∀ r ∈ rows, ∀ q ∈ rows, r.hashPrev = none → q.hashPrev = none → r = q
  linked : ∀ r ∈ rows, ∀ p, r.hashPrev = some p →
    ∃ q ∈ rows, q.hash = p ∧ r.nHeight = q.nHeight + 1
  flagged : ∀ r ∈ rows, ∀ q ∈ rows, r.hashPrev = some q.hash → q.failed = true → r.failed = true
  validBits : ∀ r ∈ rows, ValidBits r.nBits

namespace BlockIndexDB

variable {ι : Type} [DecidableEq ι] (d : BlockIndexDB ι)

/-- The entries of the hash map, in its order. -/
def hashes : List ι := d.rows.map (·.hash)

/-- `Blocks::Index::get`, after all rows were read. -/
def get (h : ι) : Option (CDiskBlockIndex ι) := d.rows.find? fun r => r.hash = h

theorem get_eq_some_iff {h : ι} {r : CDiskBlockIndex ι} :
    d.get h = some r ↔ r ∈ d.rows ∧ r.hash = h := by
  constructor
  · intro hget
    exact ⟨List.mem_of_find?_eq_some hget, by simpa using List.find?_some hget⟩
  · rintro ⟨hr, rfl⟩
    cases hget : d.get r.hash with
    | none =>
      have := List.find?_eq_none.mp hget r hr
      simp at this
    | some q =>
      have hq : q ∈ d.rows := List.mem_of_find?_eq_some hget
      have hqr : q.hash = r.hash := by simpa using List.find?_some hget
      rw [List.inj_on_of_nodup_map d.nodup hq hr hqr]

/-- The tree of the entries. -/
def forest : Forest ι where
  parent h := (d.get h).bind (·.hashPrev)
  height h := ((d.get h).map (·.nHeight)).getD 0
  height_root := by
    intro h hroot
    cases hget : d.get h with
    | none => rfl
    | some r =>
      rw [hget, Option.bind_some] at hroot
      exact d.genesis r (d.get_eq_some_iff.mp hget).1 hroot
  height_child := by
    intro h p hp
    cases hget : d.get h with
    | none =>
      rw [hget] at hp
      cases hp
    | some r =>
      rw [hget, Option.bind_some] at hp
      obtain ⟨q, hq, rfl, hheight⟩ := d.linked r (d.get_eq_some_iff.mp hget).1 p hp
      rw [d.get_eq_some_iff.mpr ⟨hq, rfl⟩]
      exact hheight

/-- The failure flags of the entries. -/
def failed (h : ι) : Bool := ((d.get h).map (·.failed)).getD false

/-- `GetBlockProof` of an entry. -/
def proof (h : ι) : ℕ := ((d.get h).map fun r => getBlockProof r.nBits).getD 0

/-- The entries after the loop over `BuildSkip`; `nChainWork` is not yet set. -/
def index : BlockIndex ι := (BlockIndex.unlinked d.forest fun _ => 0).buildSkips d.hashes

/-- `Blocks::DB::CacheAllBlockInfos`. -/
def cacheAllBlockInfos : Option (DB ι) :=
  d.hashes.foldlM (fun db h => (appendHeader d.index db h).map (·.2)) (DB.empty d.failed)

/-- `Blocks::Index::allByHeight`. -/
def allByHeight : List ι := d.hashes.mergeSort fun a b => d.forest.height a ≤ d.forest.height b

/-- The body of the loop that calculates `nChainWork`. -/
def setChainWork (nChainWork : ι → ℕ) (h : ι) : ι → ℕ :=
  Function.update nChainWork h ((((d.forest.parent h).map nChainWork).getD 0 + d.proof h) % 2 ^ 256)

/-- `LoadBlockIndexDB`: the database, and `nChainWork`. -/
def loadBlockIndexDB : Option (DB ι × (ι → ℕ)) := do
  let db ← d.cacheAllBlockInfos
  some (db, d.allByHeight.foldl d.setChainWork fun _ => 0)

/-! ## What the code is to find -/

/-- The sum of `GetBlockProof` along `pprev`. -/
def chainProof (h : ι) : ℕ := d.forest.pathSum d.proof h

/-- There is no failed block on the path to genesis. -/
def Sound (h : ι) : Prop := ∀ y, d.forest.Le y h → d.failed y = false

/-- A stored header without a failed block on its path, and none has more work. -/
def Best (t : ι) : Prop :=
  t ∈ d.hashes ∧ d.Sound t ∧ ∀ x ∈ d.hashes, d.Sound x → d.chainProof x ≤ d.chainProof t

/-- No assertion fails, and the headers chain ends at a header with the most work. -/
def LoadsBest : Prop :=
  ∃ s, d.loadBlockIndexDB = some s ∧ ∃ t, s.1.headersChain.tip = some t ∧ d.Best t

/-- The entry itself, or the last block without a failure flag below it. -/
def lastValid (h : ι) : ι := (skipFailed d.index d.failed (d.index.nHeight h + 1) h).getD h

/-- The first entry has not failed, there is a header with the most work at or above it, and
at every header on the way from the first entry to that one the first of all entries that go
on from there is on the way, too.  A failed entry goes on to the last valid block below it. -/
def LeadsToBest : Prop :=
  ∃ first, d.hashes.head? = some first ∧ d.failed first = false ∧
    ∃ m, d.Best m ∧ d.forest.Le first m ∧
      ∀ s, d.forest.Le first s → d.forest.Lt s m →
        ∀ x, d.hashes.find? (fun y => d.forest.Lt s (d.lastValid y)) = some x →
          d.forest.Le (d.lastValid x) m

/-! ## The stored tree -/

variable {d} {a b p x y : ι}

theorem mem_hashes_iff : x ∈ d.hashes ↔ ∃ r, d.get x = some r := by
  rw [hashes, List.mem_map]
  constructor
  · rintro ⟨r, hr, rfl⟩
    exact ⟨r, d.get_eq_some_iff.mpr ⟨hr, rfl⟩⟩
  · rintro ⟨r, hr⟩
    obtain ⟨hmem, rfl⟩ := d.get_eq_some_iff.mp hr
    exact ⟨r, hmem, rfl⟩

/-- Parents are stored with their children. -/
theorem mem_of_parent (hp : d.forest.parent b = some p) : b ∈ d.hashes ∧ p ∈ d.hashes := by
  cases hget : d.get b with
  | none =>
    change (d.get b).bind (·.hashPrev) = some p at hp
    rw [hget] at hp
    cases hp
  | some r =>
    change (d.get b).bind (·.hashPrev) = some p at hp
    rw [hget, Option.bind_some] at hp
    obtain ⟨q, hq, rfl, -⟩ := d.linked r (d.get_eq_some_iff.mp hget).1 p hp
    exact ⟨mem_hashes_iff.mpr ⟨r, hget⟩, List.mem_map_of_mem hq⟩

theorem mem_of_le (hle : d.forest.Le a b) (hb : b ∈ d.hashes) : a ∈ d.hashes :=
  hle.induction (P := (· ∈ d.hashes)) (fun _ _ hp _ => (mem_of_parent hp).2) hb

/-- A block without a failure flag has none below it. -/
theorem sound_iff : d.Sound b ↔ d.failed b = false := by
  constructor
  · intro h
    exact h b (Forest.Le.refl b)
  · intro hb y hy
    refine hy.induction (P := fun x => d.failed x = false) (fun c p hp hc => ?_) hb
    by_contra hcon
    cases hgetc : d.get c with
    | none =>
      change (d.get c).bind (·.hashPrev) = some p at hp
      rw [hgetc] at hp
      cases hp
    | some r =>
      change (d.get c).bind (·.hashPrev) = some p at hp
      rw [hgetc, Option.bind_some] at hp
      obtain ⟨hr, -⟩ := d.get_eq_some_iff.mp hgetc
      obtain ⟨q, hq, rfl, -⟩ := d.linked r hr p hp
      have hqf : q.failed = true := by
        rw [failed, d.get_eq_some_iff.mpr ⟨hq, rfl⟩] at hcon
        simpa using hcon
      rw [failed, hgetc] at hc
      have hrf := d.flagged r hr q hq hp hqf
      simp [hrf] at hc

/-- The work of a block is its own and that of its parent. -/
theorem chainProof_of_parent (hp : d.forest.parent b = some p) :
    d.chainProof b = d.chainProof p + d.proof b :=
  Forest.pathSum_of_parent hp

theorem proof_pos (hb : b ∈ d.hashes) : 0 < d.proof b := by
  obtain ⟨r, hr⟩ := mem_hashes_iff.mp hb
  rw [proof, hr]
  exact getBlockProof_pos (d.validBits r (d.get_eq_some_iff.mp hr).1)

theorem chainProof_lt (b p : ι) (hp : d.forest.parent b = some p) :
    d.chainProof p < d.chainProof b := by
  have hpos := proof_pos (mem_of_parent hp).1
  rw [chainProof_of_parent hp]
  omega

/-- Nothing valid is above a header with the most work. -/
theorem Best.not_lt (h : d.Best a) (hx : x ∈ d.hashes) (hs : d.Sound x) : ¬ d.forest.Lt a x := by
  rintro ⟨hle, hne⟩
  exact hne (Forest.Le.eq_of_weight chainProof_lt hle (h.2.2 x hx hs))

/-! ## The run of `cacheAllBlockInfos` -/

@[simp] theorem forest_index : d.index.forest = d.forest := by simp [index]; rfl

theorem nChainWork_index (y : ι) : d.index.nChainWork y = 0 := by simp [index, BlockIndex.unlinked]

/-- Every stored block descends from a stored block without a parent. -/
theorem exists_genesis (hb : b ∈ d.hashes) :
    ∃ g ∈ d.hashes, d.forest.parent g = none ∧ d.forest.Le g b := by
  obtain ⟨g, hg⟩ := Forest.ancestor?_isSome (F := d.forest) (Nat.zero_le (d.forest.height b))
  obtain ⟨hle, hheight⟩ := Forest.ancestor?_eq_some_iff.mp hg
  refine ⟨g, mem_of_le hle hb, ?_, hle⟩
  cases hp : d.forest.parent g with
  | none => rfl
  | some p =>
    have := d.forest.height_child g p hp
    omega

theorem genesis_eq (ha : a ∈ d.hashes) (hb : b ∈ d.hashes) (hra : d.forest.parent a = none)
    (hrb : d.forest.parent b = none) : a = b := by
  obtain ⟨r, hr⟩ := mem_hashes_iff.mp ha
  obtain ⟨q, hq⟩ := mem_hashes_iff.mp hb
  change (d.get a).bind (·.hashPrev) = none at hra
  change (d.get b).bind (·.hashPrev) = none at hrb
  rw [hr, Option.bind_some] at hra
  rw [hq, Option.bind_some] at hrb
  obtain ⟨hrm, rfl⟩ := d.get_eq_some_iff.mp hr
  obtain ⟨hqm, rfl⟩ := d.get_eq_some_iff.mp hq
  rw [d.genesis_unique r hrm q hqm hra hrb]

/-- If one entry has not failed, then below every entry there is a valid block. -/
theorem exists_valid (ha : a ∈ d.hashes) (hvalid : d.failed a = false) (hb : b ∈ d.hashes) :
    ∃ g, d.forest.Le g b ∧ d.failed g = false := by
  obtain ⟨g, hg, hroot, hgb⟩ := exists_genesis hb
  obtain ⟨g', hg', hroot', hga⟩ := exists_genesis ha
  obtain rfl := genesis_eq hg hg' hroot hroot'
  exact ⟨g, hgb, sound_iff.mpr hvalid g hga⟩

theorem lastValid_of_valid (hx : d.failed x = false) : d.lastValid x = x := by
  simp [lastValid, skipFailed, hx]

/-- `lastValid` is the highest valid block at or below an entry. -/
theorem lastValid_spec (ha : a ∈ d.hashes) (hvalid : d.failed a = false) (hx : x ∈ d.hashes) :
    skipFailed d.index d.failed (d.index.nHeight x + 1) x = some (d.lastValid x) ∧
      d.forest.Le (d.lastValid x) x ∧ d.failed (d.lastValid x) = false ∧
      ∀ y, d.forest.Le y x → d.failed y = false → d.forest.Le y (d.lastValid x) := by
  obtain ⟨g, hgx, hg⟩ := exists_valid ha hvalid hx
  have hspec := skipFailed_spec (T := d.index) hg (d.index.nHeight x + 1) x (Nat.lt_succ_self _)
  rw [forest_index] at hspec
  obtain ⟨v, hv, hle, hvf, hmax⟩ := hspec hgx
  have hlast : d.lastValid x = v := by rw [lastValid, hv, Option.getD_some]
  rw [hlast]
  exact ⟨hv, hle, hvf, hmax⟩

theorem lastValid_mem (ha : a ∈ d.hashes) (hvalid : d.failed a = false) (hx : x ∈ d.hashes) :
    d.lastValid x ∈ d.hashes :=
  mem_of_le (lastValid_spec ha hvalid hx).2.1 hx

variable {db : DB ι} {t : ι}

/-- One round of the loop moves the tip like one step of the walk. -/
theorem appendHeader_index (ha : a ∈ d.hashes) (hvalid : d.failed a = false) (hx : x ∈ d.hashes)
    (h : Settled d.index d.failed db t) :
    ∃ r db', appendHeader d.index db x = some (r, db') ∧
      Settled d.index d.failed db' (d.forest.settle t (d.lastValid x)) := by
  rw [← forest_index]
  by_cases hxf : d.failed x = true
  · obtain ⟨hskip, hle, hvf, hmax⟩ := lastValid_spec ha hvalid hx
    cases hp : d.index.pprev x with
    | none =>
      -- a failed genesis block: then no entry is valid
      rw [skipFailed, if_pos hxf, hp] at hskip
      cases hskip
    | some p =>
      have hheight := d.index.height_child x p hp
      rw [skipFailed, if_pos hxf, hp, hheight] at hskip
      refine h.announce_failed nChainWork_index ?_ hxf hp hskip hvf ?_ ?_
      · intro i hi hxi
        rw [forest_index] at hxi
        rw [sound_iff.mpr (h.unfailed i hi) x hxi] at hxf
        cases hxf
      · rw [forest_index]
        exact hle
      · rw [forest_index]
        exact hmax
  · rw [lastValid_of_valid (by simpa using hxf)]
    exact h.announce nChainWork_index (by simpa using hxf)

/-- The loop over any entries moves the tip along the walk. -/
theorem foldlM_appendHeader (ha : a ∈ d.hashes) (hvalid : d.failed a = false) :
    ∀ (l : List ι) (db : DB ι) (t : ι), (∀ x ∈ l, x ∈ d.hashes) →
    Settled d.index d.failed db t →
    ∃ db', l.foldlM (fun db h => (appendHeader d.index db h).map (·.2)) db = some db' ∧
      Settled d.index d.failed db' ((l.map d.lastValid).foldl d.forest.settle t) := by
  intro l
  induction l with
  | nil =>
    intro db t _ h
    exact ⟨db, rfl, h⟩
  | cons x l ih =>
    intro db t hl h
    obtain ⟨r, db₁, hrun, h₁⟩ := appendHeader_index ha hvalid (hl x List.mem_cons_self) h
    obtain ⟨db', hrest, h'⟩ := ih db₁ _ (fun y hy => hl y (List.mem_cons_of_mem x hy)) h₁
    refine ⟨db', ?_, h'⟩
    rw [List.foldlM_cons, hrun]
    exact hrest

/-- The first entry starts the chain. -/
theorem appendHeader_first (hx : d.failed x = false) :
    ∃ r db', appendHeader d.index (DB.empty d.failed) x = some (r, db') ∧
      Settled d.index d.failed db' x := by
  refine ⟨true, { DB.empty d.failed with
    headerChainTips := [x]
    headersChain := (⟨[]⟩ : CChain ι).setTip d.index x
    pindexBestHeader := some x }, ?_, ?_⟩
  · simp [appendHeader, DB.empty, hx, guard, CChain.contains, skipFailed, sweep, CChain.height]
  · exact ⟨rfl, CChain.setTip_isPath (.inl rfl) x, by constructor <;> simp, by simp, by simpa using hx⟩

/-- A failed entry cannot be the first. -/
theorem appendHeader_first_failed (hx : d.failed x = true) :
    appendHeader d.index (DB.empty d.failed) x = none := by
  unfold appendHeader
  cases hp : d.index.pprev x with
  | none => simp [DB.empty, hx, guard]
  | some p => simp [DB.empty, hx, guard, sweep, selectChain, CChain.tip]

/-- **The headers chain after the load** ends where the walk over the entries ends. -/
theorem cacheAllBlockInfos_eq {first : ι} {rest : List ι} (hh : d.hashes = first :: rest)
    (hvalid : d.failed first = false) :
    ∃ db, d.cacheAllBlockInfos = some db ∧
      db.headersChain.tip = some ((rest.map d.lastValid).foldl d.forest.settle first) := by
  have hmem : first ∈ d.hashes := by simp [hh]
  obtain ⟨r, db₁, hrun, h₁⟩ := appendHeader_first hvalid
  obtain ⟨db, hrest, h⟩ :=
    foldlM_appendHeader hmem hvalid rest db₁ first (fun x hx => by simp [hh, hx]) h₁
  refine ⟨db, ?_, h.path.tip_eq⟩
  rw [cacheAllBlockInfos, hh, List.foldlM_cons, hrun]
  exact hrest

theorem cacheAllBlockInfos_eq_none {first : ι} {rest : List ι} (hh : d.hashes = first :: rest)
    (hfailed : d.failed first = true) : d.cacheAllBlockInfos = none := by
  rw [cacheAllBlockInfos, hh, List.foldlM_cons, appendHeader_first_failed hfailed]
  rfl

/-- The first entry above a block that the walk has reached is not where the walk started. -/
theorem find?_map_lastValid {first s : ι} {rest : List ι} (hh : d.hashes = first :: rest)
    (hvalid : d.failed first = false) (hs : d.forest.Le first s) :
    (rest.map d.lastValid).find? (fun y => d.forest.Lt s y)
      = (d.hashes.find? fun y => d.forest.Lt s (d.lastValid y)).map d.lastValid := by
  have hfirst : ¬ d.forest.Lt s (d.lastValid first) := by
    rw [lastValid_of_valid hvalid]
    rintro ⟨hle, hne⟩
    exact hne (hle.antisymm hs)
  rw [List.find?_map, hh, List.find?_cons_of_neg (by simpa using hfirst)]
  rfl

/-- **When the load finds the best header.** -/
theorem loadsBest_iff (d : BlockIndexDB ι) : d.LoadsBest ↔ d.LeadsToBest := by
  obtain ⟨first, rest, hh⟩ : ∃ first rest, d.hashes = first :: rest :=
    List.exists_cons_of_ne_nil (by simpa [hashes] using d.nonempty)
  have hmem : first ∈ d.hashes := by simp [hh]
  by_cases hfailed : d.failed first = true
  · -- the first entry has failed
    constructor
    · rintro ⟨s, hload, -⟩
      rw [loadBlockIndexDB, cacheAllBlockInfos_eq_none hh hfailed] at hload
      cases hload
    · rintro ⟨x, hx, hxf, -⟩
      rw [hh] at hx
      obtain rfl : first = x := Option.some.inj hx
      rw [hfailed] at hxf
      cases hxf
  have hvalid : d.failed first = false := by simpa using hfailed
  obtain ⟨db, hload, htip⟩ := cacheAllBlockInfos_eq hh hvalid
  constructor
  · rintro ⟨s, hs, t, ht, hbest⟩
    rw [loadBlockIndexDB, hload] at hs
    obtain rfl := Option.some.inj hs
    obtain rfl := Option.some.inj (htip.symm.trans ht)
    obtain ⟨hle, -, -, hway⟩ := Forest.foldl_settle_eq_iff.mp
      (Eq.refl ((rest.map d.lastValid).foldl d.forest.settle first))
    refine ⟨first, by simp [hh], hvalid, _, hbest, hle, fun s hs hsm x hx => ?_⟩
    refine hway s hs hsm (d.lastValid x) ?_
    rw [find?_map_lastValid hh hvalid hs, hx, Option.map_some]
  · rintro ⟨first', hfirst', -, m, hbest, hle, hway⟩
    rw [hh] at hfirst'
    obtain rfl : first = first' := Option.some.inj hfirst'
    have hend : (rest.map d.lastValid).foldl d.forest.settle first = m := by
      refine Forest.foldl_settle_eq_iff.mpr ⟨hle, ?_, ?_, ?_⟩
      · have hm := hbest.1
        rw [hh, List.mem_cons] at hm
        refine hm.imp_right fun hm => List.mem_map.mpr ⟨m, hm, ?_⟩
        exact lastValid_of_valid (sound_iff.mp hbest.2.1)
      · intro y hy
        obtain ⟨x, hx, rfl⟩ := List.mem_map.mp hy
        have hxm : x ∈ d.hashes := by simp [hh, hx]
        exact hbest.not_lt (lastValid_mem hmem hvalid hxm)
          (sound_iff.mpr (lastValid_spec hmem hvalid hxm).2.2.1)
      · intro s hs hsm y hy
        rw [find?_map_lastValid hh hvalid hs] at hy
        obtain ⟨x, hx, rfl⟩ := Option.map_eq_some_iff.mp hy
        exact hway s hs hsm x hx
    refine ⟨(db, d.allByHeight.foldl d.setChainWork fun _ => 0), ?_, m, ?_, hbest⟩
    · rw [loadBlockIndexDB, hload]
      rfl
    · rw [htip, hend]

local instance neZero_staleFork : NeZero 4 := ⟨by decide⟩

/-- Two branches over genesis; the entry that is a stale fork comes first in the hash map. -/
def staleFork : BlockIndexDB (Fin 4) where
  rows := [⟨1, some 0, 1, false, 0x207fffff⟩, ⟨0, none, 0, false, 0x207fffff⟩,
    ⟨2, some 0, 1, false, 0x207fffff⟩, ⟨3, some 2, 2, false, 0x207fffff⟩]
  nonempty := by simp
  nodup := by decide
  genesis := by simp
  genesis_unique := by simp
  linked := by simp
  flagged := by simp
  validBits := by
    simp only [List.mem_cons, List.not_mem_nil, or_false, forall_eq_or_imp, forall_eq]
    decide

/-- The chain stays at the stale fork, and the longer branch has more work. -/
theorem not_loadsBest_staleFork : ¬ staleFork.LoadsBest := by
  rintro ⟨s, hs, t, ht, hbest⟩
  have hload : (staleFork.loadBlockIndexDB.bind fun s => s.1.headersChain.tip) = some 1 := by
    decide +kernel
  rw [hs, Option.bind_some, ht] at hload
  obtain rfl := Option.some.inj hload
  have hsound : staleFork.Sound 3 := sound_iff.mpr (by decide)
  have hle := hbest.2.2 3 (by decide) hsound
  revert hle
  decide +kernel

end BlockIndexDB

end Blocks
