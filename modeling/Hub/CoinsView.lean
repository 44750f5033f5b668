/-
# Views of the coins

`CCoinsViewCache` over another view (`libs/server/coins.cpp`), down to the database view
`CCoinsViewDB` (`libs/server/txdb.cpp`).  A read fills the caches that it passes on its
way down, so reading returns a new view, too.  A cache entry is `DIRTY` if it may differ
from the view below, and `FRESH` if the view below has no unspent output for it.

`value` is what a view holds for a transaction, with absent and pruned coins identified.
`Wf` ties the flags to the values of the view below; it is kept by all operations, and
there is one theorem for each operation that says what it does to the values.

The memory that coins occupy is a parameter `usage`.
-/
import Hub.Coins
import Hub.Maps

/-! ## The code -/

/-- `CCoinsCacheEntry`. -/
structure CCoinsCacheEntry where
  coins : CCoins
  dirty : Bool
  fresh : Bool
  deriving DecidableEq

/-- `CCoinsMap`. -/
abbrev CCoinsMap := AList fun _ : Uint256 => CCoinsCacheEntry

/-- `CCoinsViewDB`: the coins database and the hash of the best block. -/
structure CCoinsViewDB where
  coins : AList fun _ : Uint256 => CCoins
  hashBlock : Uint256
  deriving DecidableEq

/-- The members of a `CCoinsViewCache` other than `base`. -/
structure CCoinsCacheData where
  cacheCoins : CCoinsMap
  hashBlock : Uint256
  cachedCoinsUsage : ℤ
  deriving DecidableEq

/-- `CCoinsView`: a database, or a cache over another view. -/
inductive CCoinsView where
  | db (d : CCoinsViewDB)
  | cache (data : CCoinsCacheData) (base : CCoinsView)

/-- `CCoinsViewCache`. -/
structure CCoinsViewCache where
  data : CCoinsCacheData
  base : CCoinsView

/-- A cache as a view. -/
def CCoinsViewCache.view (v : CCoinsViewCache) : CCoinsView := .cache v.data v.base

/-- The constructor of `CCoinsViewCache`. -/
def CCoinsViewCache.create (base : CCoinsView) : CCoinsViewCache := ⟨⟨∅, 0, 0⟩, base⟩

variable (usage : CCoins → ℕ)

namespace CCoinsView

/-- `GetCoins`, with `FetchCoins` for a cache. -/
def getCoins : CCoinsView → Uint256 → Option CCoins × CCoinsView
  | .db d, txid => (d.coins.lookup txid, .db d)
  | .cache data base, txid =>
      match data.cacheCoins.lookup txid with
      | some e => (some e.coins, .cache data base)
      | none =>
          match base.getCoins txid with
          | (none, base) => (none, .cache data base)
          | (some tmp, base) =>
              (some tmp, .cache { data with
                cacheCoins := data.cacheCoins.insert txid ⟨tmp, false, tmp.isPruned⟩
                cachedCoinsUsage := data.cachedCoinsUsage + usage tmp } base)

/-- `HaveCoins`. -/
def haveCoins (v : CCoinsView) (txid : Uint256) : Bool × CCoinsView :=
  match v with
  | .db d => ((d.coins.lookup txid).isSome, .db d)
  | .cache data base =>
      let (coins, v) := (CCoinsView.cache data base).getCoins usage txid
      ((coins.map fun c => !c.vout.isEmpty).getD false, v)

/-- `GetBestBlock`. -/
def getBestBlock : CCoinsView → Uint256 × CCoinsView
  | .db d => (d.hashBlock, .db d)
  | .cache data base =>
      if data.hashBlock = 0 then
        let (hash, base) := base.getBestBlock
        (hash, .cache { data with hashBlock := hash } base)
      else (data.hashBlock, .cache data base)

/-- The body of the loop of `CCoinsViewDB::BatchWrite`. -/
def writeToDB (coins : AList fun _ : Uint256 => CCoins)
    (it : Σ _ : Uint256, CCoinsCacheEntry) : AList fun _ : Uint256 => CCoins :=
  if it.2.dirty then
    if it.2.coins.isPruned then coins.erase it.1 else coins.insert it.1 it.2.coins
  else coins

/-- The body of the loop of `CCoinsViewCache::BatchWrite`. -/
def writeToCache (data : CCoinsCacheData) (it : Σ _ : Uint256, CCoinsCacheEntry) :
    CCoinsCacheData :=
  if it.2.dirty then
    match data.cacheCoins.lookup it.1 with
    | none =>
        -- the parent has no entry: nothing to do if the child made and spent it
        if it.2.fresh && it.2.coins.isPruned then data
        else { data with
          cacheCoins := data.cacheCoins.insert it.1 ⟨it.2.coins, true, it.2.fresh⟩
          cachedCoinsUsage := data.cachedCoinsUsage + usage it.2.coins }
    | some us =>
        if us.fresh && it.2.coins.isPruned then
          { data with
            cacheCoins := data.cacheCoins.erase it.1
            cachedCoinsUsage := data.cachedCoinsUsage - usage us.coins }
        else { data with
          cacheCoins := data.cacheCoins.insert it.1 ⟨it.2.coins, true, us.fresh⟩
          cachedCoinsUsage := data.cachedCoinsUsage - usage us.coins + usage it.2.coins }
  else data

/-- `BatchWrite`. -/
def batchWrite : CCoinsView → CCoinsMap → Uint256 → CCoinsView
  | .db d, mapCoins, hashBlock => .db {
      coins := mapCoins.entries.foldl writeToDB d.coins
      hashBlock := if hashBlock = 0 then d.hashBlock else hashBlock }
  | .cache data base, mapCoins, hashBlock =>
      .cache { mapCoins.entries.foldl (writeToCache usage) data with hashBlock := hashBlock } base

end CCoinsView

namespace CCoinsViewCache

/-- The entry that `ModifyCoins` hands out, with the memory it occupied before. -/
def openModifier (v : CCoinsViewCache) (txid : Uint256) :
    CCoinsCacheEntry × ℕ × CCoinsView :=
  match v.data.cacheCoins.lookup txid with
  | some e => ({ e with dirty := true }, usage e.coins, v.base)
  | none =>
      match v.base.getCoins usage txid with
      | (none, base) => (⟨CCoins.empty, true, true⟩, 0, base)
      | (some coins, base) => (⟨coins, true, coins.isPruned⟩, 0, base)

/-- The destructor of `CCoinsModifier`. -/
def closeModifier (data : CCoinsCacheData) (txid : Uint256) (entry : CCoinsCacheEntry)
    (cachedCoinUsage : ℕ) : CCoinsCacheData :=
  let coins := entry.coins.cleanup
  if entry.fresh && coins.isPruned then
    { data with
      cacheCoins := data.cacheCoins.erase txid
      cachedCoinsUsage := data.cachedCoinsUsage - cachedCoinUsage }
  else
    { data with
      cacheCoins := data.cacheCoins.insert txid { entry with coins := coins }
      cachedCoinsUsage := data.cachedCoinsUsage - cachedCoinUsage + usage coins }

/-- `ModifyCoins`, an edit of the coins that also gives a result, and the end of the
modifier. -/
def modifyCoins {α : Type} (v : CCoinsViewCache) (txid : Uint256)
    (edit : CCoins → α × CCoins) : α × CCoinsViewCache :=
  let (entry, cachedCoinUsage, base) := v.openModifier usage txid
  let (result, coins) := edit entry.coins
  (result,
    ⟨closeModifier usage v.data txid { entry with coins := coins } cachedCoinUsage, base⟩)

/-- `AccessCoins`; `GetCoins` of a cache reads the same. -/
def accessCoins (v : CCoinsViewCache) (txid : Uint256) : Option CCoins × CCoinsViewCache :=
  match v.data.cacheCoins.lookup txid with
  | some e => (some e.coins, v)
  | none =>
      match v.base.getCoins usage txid with
      | (none, base) => (none, ⟨v.data, base⟩)
      | (some tmp, base) =>
          (some tmp, ⟨{ v.data with
            cacheCoins := v.data.cacheCoins.insert txid ⟨tmp, false, tmp.isPruned⟩
            cachedCoinsUsage := v.data.cachedCoinsUsage + usage tmp }, base⟩)

/-- `SetBestBlock`. -/
def setBestBlock (v : CCoinsViewCache) (hashBlock : Uint256) : CCoinsViewCache :=
  { v with data := { v.data with hashBlock := hashBlock } }

/-- `Uncache`. -/
def uncache (v : CCoinsViewCache) (txid : Uint256) : CCoinsViewCache :=
  match v.data.cacheCoins.lookup txid with
  | some e =>
      if !e.dirty && !e.fresh then
        { v with data := { v.data with
          cacheCoins := v.data.cacheCoins.erase txid
          cachedCoinsUsage := v.data.cachedCoinsUsage - usage e.coins } }
      else v
  | none => v

/-- `Flush`. -/
def flush (v : CCoinsViewCache) : CCoinsViewCache :=
  ⟨{ v.data with cacheCoins := ∅, cachedCoinsUsage := 0 },
    v.base.batchWrite usage v.data.cacheCoins v.data.hashBlock⟩

end CCoinsViewCache

/-! ## Values and flags -/

namespace CCoinsView

/-- What a view holds, read without filling caches. -/
def lookup : CCoinsView → Uint256 → Option CCoins
  | .db d, txid => d.coins.lookup txid
  | .cache data base, txid =>
      match data.cacheCoins.lookup txid with
      | some e => some e.coins
      | none => base.lookup txid

/-- What a view holds, with absent and pruned coins identified. -/
def value (v : CCoinsView) (txid : Uint256) : Option CCoins := CCoins.norm (v.lookup txid)

/-- What a cache with the entry `o` over a view that holds `below` holds. -/
def overlay (below : Option CCoins) (o : Option CCoinsCacheEntry) : Option CCoins :=
  o.elim below fun e => CCoins.norm (some e.coins)

/-- An entry with the flags it has, over a view that holds `below`. -/
structure EntryOk (below : Option CCoins) (e : CCoinsCacheEntry) : Prop where
  clean : e.coins.Clean
  unchanged : e.dirty = false → CCoins.norm (some e.coins) = below
  absent : e.fresh = true → below = none

/-- The flags of all caches are right, and coins are stored without spent outputs at
the end. -/
def Wf : CCoinsView → Prop
  | .db d => ∀ txid c, d.coins.lookup txid = some c → c.Clean
  | .cache data base => base.Wf ∧
      ∀ txid e, data.cacheCoins.lookup txid = some e → EntryOk (base.value txid) e

/-- The values at all levels of a stack, from the top down. -/
def values : CCoinsView → List (Uint256 → Option CCoins)
  | .db d => [(CCoinsView.db d).value]
  | .cache data base => (CCoinsView.cache data base).value :: base.values

variable {v base : CCoinsView} {data : CCoinsCacheData} {d : CCoinsViewDB} {txid : Uint256}

theorem value_cache (data : CCoinsCacheData) (base : CCoinsView) (txid : Uint256) :
    (cache data base).value txid = overlay (base.value txid) (data.cacheCoins.lookup txid) := by
  rw [value, lookup]
  cases data.cacheCoins.lookup txid with
  | none => rfl
  | some e => rfl

theorem value_cache_of_some {e : CCoinsCacheEntry} (h : data.cacheCoins.lookup txid = some e) :
    (cache data base).value txid = CCoins.norm (some e.coins) := by
  rw [value_cache, h]
  rfl

theorem value_cache_of_none (h : data.cacheCoins.lookup txid = none) :
    (cache data base).value txid = base.value txid := by
  rw [value_cache, h]
  rfl

/-- Whatever a well-formed view holds is clean. -/
theorem Wf.clean (h : v.Wf) {c : CCoins} (hc : v.lookup txid = some c) : c.Clean := by
  induction v with
  | db d => exact h txid c hc
  | cache data base ih =>
    rw [lookup] at hc
    cases he : data.cacheCoins.lookup txid with
    | none =>
      rw [he] at hc
      exact ih h.1 hc
    | some e =>
      rw [he] at hc
      obtain rfl := Option.some.inj hc
      exact (h.2 txid e he).clean

/-! ## Reading -/

@[simp] theorem getCoins_fst (v : CCoinsView) (txid : Uint256) :
    (v.getCoins usage txid).1 = v.lookup txid := by
  induction v with
  | db d => rfl
  | cache data base ih =>
    rw [getCoins, lookup]
    cases he : data.cacheCoins.lookup txid with
    | some e => rfl
    | none =>
      simp only
      rw [← ih]
      cases base.getCoins usage txid with
      | mk r base' =>
        cases r with
        | none => rfl
        | some c => rfl

/-- Reading changes no value. -/
@[simp] theorem lookup_getCoins (v : CCoinsView) (txid t : Uint256) :
    (v.getCoins usage txid).2.lookup t = v.lookup t := by
  induction v with
  | db d => rfl
  | cache data base ih =>
    rw [getCoins]
    cases he : data.cacheCoins.lookup txid with
    | some e => rfl
    | none =>
      have hfst := getCoins_fst usage base txid
      simp only
      cases hget : base.getCoins usage txid with
      | mk r base' =>
        rw [hget] at hfst ih
        simp only at hfst ih
        cases r with
        | none =>
          simp only [lookup]
          rw [ih]
        | some c =>
          simp only [lookup]
          by_cases ht : t = txid
          · subst ht
            rw [AList.lookup_insert, he]
            exact hfst
          · rw [AList.lookup_insert_ne ht, ih]

@[simp] theorem value_getCoins (v : CCoinsView) (txid t : Uint256) :
    (v.getCoins usage txid).2.value t = v.value t := by
  rw [value, value, lookup_getCoins]

theorem Wf.getCoins (h : v.Wf) (txid : Uint256) : (v.getCoins usage txid).2.Wf := by
  induction v with
  | db d => exact h
  | cache data base ih =>
    obtain ⟨hbase, hdata⟩ := h
    rw [CCoinsView.getCoins]
    cases he : data.cacheCoins.lookup txid with
    | some e => exact ⟨hbase, hdata⟩
    | none =>
      have hwf := ih hbase
      have hval := fun t => value_getCoins usage base txid t
      have hfst := getCoins_fst usage base txid
      simp only
      cases hget : base.getCoins usage txid with
      | mk r base' =>
        rw [hget] at hwf hval hfst
        simp only at hwf hval hfst
        cases r with
        | none =>
          refine ⟨hwf, fun t e hte => ?_⟩
          rw [hval]
          exact hdata t e hte
        | some c =>
          refine ⟨hwf, fun t e hte => ?_⟩
          rw [hval]
          by_cases ht : t = txid
          · -- the entry that was filled in
            subst ht
            rw [AList.lookup_insert] at hte
            obtain rfl := Option.some.inj hte
            have hbelow : base.value t = CCoins.norm (some c) := by rw [value, ← hfst]
            rw [hbelow]
            refine ⟨hbase.clean hfst.symm, fun _ => rfl, fun hfresh => ?_⟩
            exact CCoins.norm_some_of_pruned hfresh
          · rw [AList.lookup_insert_ne ht] at hte
            exact hdata t e hte

/-- Reading changes no value at any level. -/
@[simp] theorem values_getCoins (v : CCoinsView) (txid : Uint256) :
    (v.getCoins usage txid).2.values = v.values := by
  induction v with
  | db d => rfl
  | cache data base ih =>
    have htop : ((cache data base).getCoins usage txid).2.value = (cache data base).value :=
      funext fun t => value_getCoins usage _ txid t
    have hshape : ∃ data' base', ((cache data base).getCoins usage txid).2 = cache data' base' ∧
        base'.values = base.values := by
      simp only [getCoins]
      cases he : data.cacheCoins.lookup txid with
      | some e => exact ⟨data, base, rfl, rfl⟩
      | none =>
        simp only
        cases hget : base.getCoins usage txid with
        | mk r base' =>
          rw [hget] at ih
          cases r with
          | none => exact ⟨_, base', rfl, ih⟩
          | some c => exact ⟨_, base', rfl, ih⟩
    obtain ⟨data', base', hget, hvals⟩ := hshape
    rw [hget] at htop ⊢
    rw [values, values, htop, hvals]

/-- `HaveCoins` of a cache asks for a value. -/
theorem haveCoins_cache (h : (cache data base).Wf) (txid : Uint256) :
    ((cache data base).haveCoins usage txid).1 = ((cache data base).value txid).isSome := by
  unfold haveCoins
  simp only [getCoins_fst]
  rw [value]
  cases hl : (cache data base).lookup txid with
  | none => rfl
  | some c =>
    have hclean := h.clean hl
    by_cases hp : c.isPruned = true
    · rw [CCoins.norm_some_of_pruned hp]
      simp [hclean.isPruned_iff.mp hp]
    · have hne : c.vout ≠ [] := fun hv => hp (hclean.isPruned_iff.mpr hv)
      rw [CCoins.norm_some_of_not_pruned hp]
      simpa using hne

end CCoinsView

namespace CCoinsViewCache

open CCoinsView

variable {α : Type}

theorem view_accessCoins (v : CCoinsViewCache) (txid : Uint256) :
    ((v.accessCoins usage txid).1, (v.accessCoins usage txid).2.view)
      = v.view.getCoins usage txid := by
  simp only [accessCoins, view, getCoins]
  cases v.data.cacheCoins.lookup txid with
  | some e => rfl
  | none =>
    simp only
    cases v.base.getCoins usage txid with
    | mk r base' =>
      cases r with
      | none => rfl
      | some c => rfl

/-! ## Modifying -/

/-- What `ModifyCoins` hands out: the coins that the view holds, in an entry with the
right flags over a view below whose values did not change. -/
theorem openModifier_spec {v : CCoinsViewCache} (h : v.view.Wf) (txid : Uint256) :
    let (e, _, base) := v.openModifier usage txid
    CCoins.norm (some e.coins) = v.view.value txid ∧ e.dirty = true ∧ e.coins.Clean ∧
      (e.fresh = true → base.value txid = none) ∧ base.Wf ∧ base.values = v.base.values ∧
      ∀ t, base.value t = v.base.value t := by
  obtain ⟨hbase, hdata⟩ := h
  unfold openModifier
  cases he : v.data.cacheCoins.lookup txid with
  | some e =>
    have hok := hdata txid e he
    exact ⟨(value_cache_of_some he).symm, rfl, hok.clean, hok.absent, hbase, rfl, fun _ => rfl⟩
  | none =>
    have hfst := getCoins_fst usage v.base txid
    have hwf := hbase.getCoins usage txid
    have hvals := values_getCoins usage v.base txid
    have hval := fun t => value_getCoins usage v.base txid t
    have htop : v.view.value txid = v.base.value txid := value_cache_of_none he
    simp only
    cases hget : v.base.getCoins usage txid with
    | mk r base =>
      rw [hget] at hfst hwf hvals hval
      simp only at hfst hwf hvals hval
      cases r with
      | none =>
        have hnone : v.base.value txid = none := by rw [value, ← hfst, CCoins.norm_none]
        refine ⟨?_, rfl, CCoins.clean_empty, fun _ => ?_, hwf, hvals, hval⟩
        · rw [htop, hnone]
          exact CCoins.norm_some_of_pruned rfl
        · rw [hval, hnone]
      | some c =>
        have hsome : v.base.value txid = CCoins.norm (some c) := by rw [value, ← hfst]
        refine ⟨?_, rfl, hbase.clean hfst.symm, fun hfresh => ?_, hwf, hvals, hval⟩
        · rw [htop, hsome]
        · rw [hval, hsome]
          exact CCoins.norm_some_of_pruned hfresh

/-- **`ModifyCoins`.**  The edit is given coins with the value that the view holds, and
the view then holds what the edit left, cleaned up.  Nothing else changes. -/
theorem modifyCoins_spec {v : CCoinsViewCache} (h : v.view.Wf) (txid : Uint256)
    (edit : CCoins → α × CCoins) :
    ∃ c, CCoins.norm (some c) = v.view.value txid ∧ c.Clean ∧
      (v.modifyCoins usage txid edit).1 = (edit c).1 ∧
      (v.modifyCoins usage txid edit).2.view.value
        = Function.update v.view.value txid (CCoins.norm (some (edit c).2.cleanup)) ∧
      (v.modifyCoins usage txid edit).2.base.values = v.base.values ∧
      (v.modifyCoins usage txid edit).2.view.Wf := by
  have hopen := openModifier_spec usage h txid
  obtain ⟨-, hdata⟩ := h
  unfold modifyCoins
  cases ho : v.openModifier usage txid with
  | mk e rest =>
    obtain ⟨old, base⟩ := rest
    rw [ho] at hopen
    simp only at hopen ⊢
    obtain ⟨hc, hdirty, hclean, hfresh, hwf, hvals, hval⟩ := hopen
    refine ⟨e.coins, hc, hclean, rfl, ?_, hvals, ?_⟩
    · funext t
      unfold closeModifier
      by_cases hdrop : (e.fresh && (edit e.coins).2.cleanup.isPruned) = true
      · rw [if_pos hdrop]
        obtain ⟨hf, hp⟩ : e.fresh = true ∧ (edit e.coins).2.cleanup.isPruned = true := by
          simpa using hdrop
        by_cases ht : t = txid
        · subst ht
          rw [Function.update_self, CCoins.norm_some_of_pruned hp]
          rw [view, value_cache_of_none (AList.lookup_erase t _)]
          exact hfresh hf
        · rw [Function.update_of_ne ht, view, value_cache, AList.lookup_erase_ne ht, hval]
          exact (value_cache _ _ t).symm
      · rw [if_neg hdrop]
        by_cases ht : t = txid
        · subst ht
          rw [Function.update_self, view, value_cache_of_some (AList.lookup_insert _)]
        · rw [Function.update_of_ne ht, view, value_cache, AList.lookup_insert_ne ht, hval]
          exact (value_cache _ _ t).symm
    · refine ⟨hwf, fun t e' het => ?_⟩
      rw [hval]
      unfold closeModifier at het
      by_cases ht : t = txid
      · subst ht
        by_cases hdrop : (e.fresh && (edit e.coins).2.cleanup.isPruned) = true
        · rw [if_pos hdrop] at het
          rw [AList.lookup_erase] at het
          cases het
        · rw [if_neg hdrop] at het
          rw [AList.lookup_insert] at het
          obtain rfl := Option.some.inj het
          refine ⟨CCoins.clean_cleanup _, fun hd => ?_, fun hf => ?_⟩
          · simp only at hd
            rw [hdirty] at hd
            cases hd
          · rw [← hval]
            exact hfresh hf
      · refine hdata t e' ?_
        by_cases hdrop : (e.fresh && (edit e.coins).2.cleanup.isPruned) = true
        · rw [if_pos hdrop] at het
          rw [AList.lookup_erase_ne ht] at het
          exact het
        · rw [if_neg hdrop] at het
          rw [AList.lookup_insert_ne ht] at het
          exact het

/-! ## Dropping unchanged entries -/

/-- **`Uncache`** changes no value. -/
theorem uncache_spec {v : CCoinsViewCache} (h : v.view.Wf) (txid : Uint256) :
    (v.uncache usage txid).view.value = v.view.value ∧
      (v.uncache usage txid).base = v.base ∧ (v.uncache usage txid).view.Wf := by
  unfold uncache
  cases he : v.data.cacheCoins.lookup txid with
  | none => exact ⟨rfl, rfl, h⟩
  | some e =>
    simp only
    by_cases hflags : (!e.dirty && !e.fresh) = true
    · rw [if_pos hflags]
      have hsame := (h.2 txid e he).unchanged (by simp_all)
      refine ⟨?_, rfl, h.1, fun t e' het => ?_⟩
      · funext t
        by_cases ht : t = txid
        · subst ht
          rw [view, value_cache_of_none (AList.lookup_erase t _), view, value_cache_of_some he]
          exact hsame.symm
        · rw [view, value_cache, AList.lookup_erase_ne ht]
          exact (value_cache _ _ t).symm
      · by_cases ht : t = txid
        · subst ht
          rw [AList.lookup_erase] at het
          cases het
        · rw [AList.lookup_erase_ne ht] at het
          exact h.2 t e' het
    · rw [if_neg hflags]
      exact ⟨rfl, rfl, h⟩

end CCoinsViewCache

/-! ## Writing through -/

namespace CCoinsView

/-- What one entry of the child makes of a database record. -/
def mergeRecord (e : CCoinsCacheEntry) (o : Option CCoins) : Option CCoins :=
  if e.dirty then (if e.coins.isPruned then none else some e.coins) else o

/-- What the loop of `CCoinsViewDB::BatchWrite` leaves at a key. -/
theorem lookup_writeToDB (m : CCoinsMap) (coins : AList fun _ : Uint256 => CCoins)
    (t : Uint256) :
    (m.entries.foldl writeToDB coins).lookup t
      = (m.lookup t).elim (coins.lookup t) fun e => mergeRecord e (coins.lookup t) := by
  refine Maps.foldl_entries writeToDB (fun coins t => coins.lookup t) (fun _ => mergeRecord)
    ?_ ?_ m.entries m.nodupKeys coins t
  · intro coins k e
    unfold writeToDB mergeRecord
    by_cases hd : e.dirty = true
    · by_cases hp : e.coins.isPruned = true
      · simp [hd, hp]
      · simp [hd, hp]
    · simp [hd]
  · intro coins k e k' hk
    unfold writeToDB
    by_cases hd : e.dirty = true
    · by_cases hp : e.coins.isPruned = true
      · simp [hd, hp, AList.lookup_erase_ne hk]
      · simp [hd, hp, AList.lookup_insert_ne hk]
    · simp [hd]

/-- What one entry of the child makes of an entry of the parent. -/
def mergeEntry (e : CCoinsCacheEntry) (o : Option CCoinsCacheEntry) : Option CCoinsCacheEntry :=
  if e.dirty then
    match o with
    | none => if e.fresh && e.coins.isPruned then none else some ⟨e.coins, true, e.fresh⟩
    | some us =>
        if us.fresh && e.coins.isPruned then none else some ⟨e.coins, true, us.fresh⟩
  else o

/-- What the loop of `CCoinsViewCache::BatchWrite` leaves at a key. -/
theorem lookup_writeToCache (m : CCoinsMap) (data : CCoinsCacheData) (t : Uint256) :
    (m.entries.foldl (writeToCache usage) data).cacheCoins.lookup t
      = (m.lookup t).elim (data.cacheCoins.lookup t)
          fun e => mergeEntry e (data.cacheCoins.lookup t) := by
  refine Maps.foldl_entries (writeToCache usage) (fun data t => data.cacheCoins.lookup t)
    (fun _ => mergeEntry) ?_ ?_ m.entries m.nodupKeys data t
  · intro data k e
    unfold writeToCache mergeEntry
    by_cases hd : e.dirty = true
    · simp only [hd, if_true]
      cases hl : data.cacheCoins.lookup k with
      | none =>
        simp only
        split
        · exact hl
        · exact AList.lookup_insert _
      | some us =>
        simp only
        split
        · exact AList.lookup_erase k _
        · exact AList.lookup_insert _
    · simp only [hd, Bool.false_eq_true, if_false]
  · intro data k e k' hk
    unfold writeToCache
    by_cases hd : e.dirty = true
    · simp only [hd, if_true]
      cases hl : data.cacheCoins.lookup k with
      | none =>
        simp only
        split
        · rfl
        · exact AList.lookup_insert_ne hk
      | some us =>
        simp only
        split
        · exact AList.lookup_erase_ne hk
        · exact AList.lookup_insert_ne hk
    · simp only [hd, Bool.false_eq_true, if_false]

/-- One entry of the child over an entry of the parent over `below`: the flags stay
right, and the parent then holds what the child held. -/
theorem mergeEntry_spec {e : CCoinsCacheEntry} {o : Option CCoinsCacheEntry}
    {below : Option CCoins} (ho : ∀ us, o = some us → EntryOk below us)
    (he : EntryOk (overlay below o) e) :
    (∀ us, mergeEntry e o = some us → EntryOk below us) ∧
      overlay below (mergeEntry e o) = CCoins.norm (some e.coins) := by
  unfold mergeEntry
  by_cases hd : e.dirty = true
  · simp only [hd, if_true]
    cases o with
    | none =>
      simp only
      by_cases hdrop : (e.fresh && e.coins.isPruned) = true
      · obtain ⟨hf, hp⟩ : e.fresh = true ∧ e.coins.isPruned = true := by simpa using hdrop
        rw [if_pos hdrop]
        refine ⟨by simp, ?_⟩
        rw [CCoins.norm_some_of_pruned hp]
        exact he.absent hf
      · rw [if_neg hdrop]
        refine ⟨fun us hus => ?_, rfl⟩
        obtain rfl := Option.some.inj hus
        exact ⟨he.clean, fun h => absurd h (by simp), he.absent⟩
    | some us =>
      have hus := ho us rfl
      simp only
      by_cases hdrop : (us.fresh && e.coins.isPruned) = true
      · obtain ⟨hf, hp⟩ : us.fresh = true ∧ e.coins.isPruned = true := by simpa using hdrop
        rw [if_pos hdrop]
        refine ⟨by simp, ?_⟩
        rw [CCoins.norm_some_of_pruned hp]
        exact hus.absent hf
      · rw [if_neg hdrop]
        refine ⟨fun us' hus' => ?_, rfl⟩
        obtain rfl := Option.some.inj hus'
        exact ⟨he.clean, fun h => absurd h (by simp), hus.absent⟩
  · simp only [hd, Bool.false_eq_true, if_false]
    exact ⟨ho, (he.unchanged (by simpa using hd)).symm⟩

/-- One entry of the child over a database record. -/
theorem mergeRecord_spec {e : CCoinsCacheEntry} {o : Option CCoins}
    (ho : ∀ c, o = some c → c.Clean) (he : EntryOk (CCoins.norm o) e) :
    (∀ c, mergeRecord e o = some c → c.Clean) ∧
      CCoins.norm (mergeRecord e o) = CCoins.norm (some e.coins) := by
  unfold mergeRecord
  by_cases hd : e.dirty = true
  · simp only [hd, if_true]
    by_cases hp : e.coins.isPruned = true
    · rw [if_pos hp]
      refine ⟨by simp, ?_⟩
      rw [CCoins.norm_some_of_pruned hp, CCoins.norm_none]
    · rw [if_neg hp]
      refine ⟨fun c hc => ?_, rfl⟩
      obtain rfl := Option.some.inj hc
      exact he.clean
  · simp only [hd, Bool.false_eq_true, if_false]
    exact ⟨ho, (he.unchanged (by simpa using hd)).symm⟩

/-- **`BatchWrite`** of entries with the right flags: the view then holds what the
entries hold. -/
theorem batchWrite_spec {v : CCoinsView} (h : v.Wf) {m : CCoinsMap}
    (hm : ∀ t e, m.lookup t = some e → EntryOk (v.value t) e) (hashBlock : Uint256) :
    (v.batchWrite usage m hashBlock).Wf ∧
      (∀ t, (v.batchWrite usage m hashBlock).value t = overlay (v.value t) (m.lookup t)) ∧
      (v.batchWrite usage m hashBlock).values.tail = v.values.tail := by
  cases v with
  | db d =>
    refine ⟨fun t c hc => ?_, fun t => ?_, rfl⟩
    · rw [lookup_writeToDB] at hc
      cases hl : m.lookup t with
      | none =>
        rw [hl] at hc
        exact h t c hc
      | some e =>
        rw [hl] at hc
        exact (mergeRecord_spec (h t) (hm t e hl)).1 c hc
    · simp only [batchWrite, value, lookup]
      rw [lookup_writeToDB]
      cases hl : m.lookup t with
      | none => rfl
      | some e => exact (mergeRecord_spec (h t) (hm t e hl)).2
  | cache data base =>
    have hmerge : ∀ t e, m.lookup t = some e →
        EntryOk (overlay (base.value t) (data.cacheCoins.lookup t)) e := by
      intro t e hl
      rw [← value_cache]
      exact hm t e hl
    refine ⟨⟨h.1, fun t e hl => ?_⟩, fun t => ?_, rfl⟩
    · simp only at hl
      rw [lookup_writeToCache] at hl
      cases hlm : m.lookup t with
      | none =>
        rw [hlm] at hl
        exact h.2 t e hl
      | some e' =>
        rw [hlm] at hl
        exact (mergeEntry_spec (h.2 t) (hmerge t e' hlm)).1 e hl
    · rw [batchWrite, value_cache, lookup_writeToCache, value_cache]
      cases hlm : m.lookup t with
      | none => rfl
      | some e => exact (mergeEntry_spec (h.2 t) (hmerge t e hlm)).2

end CCoinsView

namespace CCoinsViewCache

open CCoinsView

/-- **`Flush`** brings the view below to the values of the cache, and changes no value
of the cache. -/
theorem flush_spec {v : CCoinsViewCache} (h : v.view.Wf) :
    (v.flush usage).view.Wf ∧ (v.flush usage).view.value = v.view.value ∧
      (v.flush usage).base.value = v.view.value ∧
      (v.flush usage).base.values.tail = v.base.values.tail := by
  obtain ⟨hwf, hval, hrest⟩ := batchWrite_spec usage h.1 h.2 v.data.hashBlock
  have hbase : (v.flush usage).base.value = v.view.value := by
    funext t
    exact (hval t).trans (value_cache _ _ t).symm
  have htop : (v.flush usage).view.value = v.view.value := by
    rw [← hbase]
    funext t
    exact value_cache_of_none (AList.lookup_empty t)
  refine ⟨⟨hwf, fun t e hl => ?_⟩, htop, hbase, hrest⟩
  rw [flush] at hl
  simp only [AList.lookup_empty] at hl
  cases hl

end CCoinsViewCache
