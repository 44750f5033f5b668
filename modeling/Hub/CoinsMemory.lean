/-
# The memory of a coin cache

`CCoinsViewCache` (`libs/server/coins.cpp`) adds up in `cachedCoinsUsage` what the `CCoins` objects of
the cache occupy, and follows it by additions and subtractions around every change of one of them.
The memory of an object depends on the capacities of its vectors, and so on its past: an object
carries its `DynamicMemoryUsage` here, and the `Allocator` says what a copy or a change makes of it.
The counter is unsigned, and a subtraction that would go below zero fails (`sub`).

* `always_exact` : no subtraction fails, and between the operations the counter is the sum over the
  objects of the cache.
-/
import Hub.BlockUndo
import Hub.Runs

/-! ## Clean views -/

namespace CCoinsView

/-- All caches and the database have coins without spent outputs at the end. -/
def Clean : CCoinsView → Prop
  | .db d => ∀ txid c, d.coins.lookup txid = some c → c.Clean
  | .cache data base => base.Clean ∧
      ∀ txid e, data.cacheCoins.lookup txid = some e → e.coins.Clean

variable {usage : CCoins → ℕ} {v : CCoinsView}

theorem Clean.lookup (h : v.Clean) {txid : Uint256} {c : CCoins} (hc : v.lookup txid = some c) :
    c.Clean := by
  induction v with
  | db d => exact h txid c hc
  | cache data base ih =>
    rw [CCoinsView.lookup] at hc
    cases he : data.cacheCoins.lookup txid with
    | none =>
      rw [he] at hc
      exact ih h.1 hc
    | some e =>
      rw [he] at hc
      obtain rfl := Option.some.inj hc
      exact h.2 txid e he

theorem Clean.getCoins (h : v.Clean) (txid : Uint256) : (v.getCoins usage txid).2.Clean := by
  induction v with
  | db d => exact h
  | cache data base ih =>
    rw [CCoinsView.getCoins]
    cases he : data.cacheCoins.lookup txid with
    | some e => exact h
    | none =>
      have hbase := ih h.1
      have hfst := getCoins_fst usage base txid
      simp only
      cases hget : base.getCoins usage txid with
      | mk r base' =>
        rw [hget] at hbase hfst
        cases r with
        | none => exact ⟨hbase, h.2⟩
        | some c =>
          refine ⟨hbase, fun t e hte => ?_⟩
          by_cases ht : t = txid
          · subst ht
            rw [AList.lookup_insert] at hte
            obtain rfl := Option.some.inj hte
            exact h.1.lookup hfst.symm
          · rw [AList.lookup_insert_ne ht] at hte
            exact h.2 t e hte

/-- The coins of a merged entry are those of the child or of the parent. -/
theorem mergeEntry_coins {e e' : CCoinsCacheEntry} {o : Option CCoinsCacheEntry}
    (h : mergeEntry e' o = some e) : e.coins = e'.coins ∨ o = some e := by
  unfold mergeEntry at h
  by_cases hd : e'.dirty = true
  · rw [if_pos hd] at h
    left
    cases o with
    | none =>
      simp only at h
      split_ifs at h
      obtain rfl := Option.some.inj h
      rfl
    | some us =>
      simp only at h
      split_ifs at h
      obtain rfl := Option.some.inj h
      rfl
  · rw [if_neg hd] at h
    exact .inr h

theorem Clean.batchWrite (h : v.Clean) {m : CCoinsMap}
    (hm : ∀ t e, m.lookup t = some e → e.coins.Clean) (hashBlock : Uint256) :
    (v.batchWrite usage m hashBlock).Clean := by
  cases v with
  | db d =>
    intro t c hc
    rw [lookup_writeToDB] at hc
    cases hl : m.lookup t with
    | none =>
      rw [hl] at hc
      exact h t c hc
    | some e =>
      rw [hl] at hc
      change mergeRecord e _ = some c at hc
      rw [mergeRecord] at hc
      split_ifs at hc
      · obtain rfl := Option.some.inj hc
        exact hm t e hl
      · exact h t c hc
  | cache data base =>
    refine ⟨h.1, fun t e he => ?_⟩
    change ((m.entries.foldl (writeToCache usage) data).cacheCoins.lookup t) = some e at he
    rw [lookup_writeToCache] at he
    cases hl : m.lookup t with
    | none =>
      rw [hl] at he
      exact h.2 t e he
    | some e' =>
      rw [hl] at he
      exact (mergeEntry_coins he).elim (fun hcoins => hcoins ▸ hm t e' hl) (h.2 t e)

end CCoinsView

/-! ## The code -/

/-- A `CCoins` object, and its `DynamicMemoryUsage`. -/
structure CoinsObject where
  coins : CCoins
  dynamicMemoryUsage : ℕ

/-- What the vectors of an object occupy: `copied` is for a copy of coins or a record that is read,
`changed` for an object that is changed to have the coins. -/
structure Allocator where
  copied : CCoins → ℕ
  changed : CoinsObject → CCoins → ℕ
  /-- a new vector without elements has no memory -/
  copied_nil : ∀ c : CCoins, c.vout = [] → copied c = 0

namespace CoinsObject

variable (m : Allocator) (o : CoinsObject)

/-- What `Clear` leaves. -/
def cleared : CoinsObject := ⟨CCoins.empty, 0⟩

/-- The object with the coins that `Cleanup` leaves: without outputs it gives its memory back. -/
def trim (c : CCoins) : CoinsObject := ⟨c, if c.vout = [] then 0 else m.changed o c⟩

/-- `CCoins::Cleanup`. -/
def cleanup : CoinsObject := o.trim m o.coins.cleanup

/-- `CCoins::Spend`. -/
def spend (nPos : ℕ) : Option CoinsObject := (o.coins.spend nPos).map (o.trim m)

/-- `CCoins::FromTx`. -/
def fromTx (tx : CTransaction) (nHeight : Int32) : CoinsObject := o.trim m (CCoins.fromTx tx nHeight)

end CoinsObject

/-- `CCoinsCacheEntry` when no modifier has it: it is cleaned up. -/
structure CoinsEntry where
  object : CoinsObject
  dirty : Bool
  fresh : Bool
  clean : object.coins.Clean
  freed : object.coins.vout = [] → object.dynamicMemoryUsage = 0

/-- `CCoinsMap`. -/
abbrev CoinsEntries := AList fun _ : Uint256 => CoinsEntry

/-- `CCoinsViewCache`. -/
structure CoinsCache where
  cacheCoins : CoinsEntries
  hashBlock : Uint256
  cachedCoinsUsage : ℕ
  base : CCoinsView
  base_clean : base.Clean

namespace CoinsEntry

/-- The coins and the flags. -/
def shown (e : CoinsEntry) : CCoinsCacheEntry := ⟨e.object.coins, e.dirty, e.fresh⟩

/-- What is read from the view below. -/
def ofBase (m : Allocator) (c : CCoins) (h : c.Clean) : CoinsEntry :=
  ⟨⟨c, m.copied c⟩, false, c.isPruned, h, m.copied_nil c⟩

/-- What a modifier leaves. -/
def ofModifier (m : Allocator) (o : CoinsObject) (fresh : Bool) : CoinsEntry :=
  ⟨o.cleanup m, true, fresh, CCoins.clean_cleanup _, fun h => if_pos h⟩

end CoinsEntry

namespace CoinsCache

variable (m : Allocator)

/-- `-=` of a `size_t`, if it does not wrap. -/
def sub (n k : ℕ) : Option ℕ := if k ≤ n then some (n - k) else none

theorem clean_shown (l : CoinsEntries) {txid : Uint256} {e : CCoinsCacheEntry}
    (he : (Maps.mapValues CoinsEntry.shown l).lookup txid = some e) : e.coins.Clean := by
  rw [Maps.lookup_mapValues] at he
  obtain ⟨e', -, rfl⟩ := Option.map_eq_some_iff.mp he
  exact e'.clean

/-- The constructor of `CCoinsViewCache`. -/
def create (base : CCoinsView) (h : base.Clean) : CoinsCache := ⟨∅, 0, 0, base, h⟩

/-- `base->GetCoins`. -/
def readBase (s : CoinsCache) (txid : Uint256) : Option CoinsEntry × CoinsCache :=
  (Option.pmap (CoinsEntry.ofBase m) (s.base.getCoins m.copied txid).1 fun _ hc =>
      s.base_clean.lookup ((CCoinsView.getCoins_fst m.copied s.base txid).symm.trans hc),
    { s with
      base := (s.base.getCoins m.copied txid).2
      base_clean := s.base_clean.getCoins txid })

/-- `FetchCoins`. -/
def fetchCoins (s : CoinsCache) (txid : Uint256) : Option CoinsObject × CoinsCache :=
  match s.cacheCoins.lookup txid with
  | some e => (some e.object, s)
  | none =>
      match s.readBase m txid with
      | (none, s) => (none, s)
      | (some ret, s) =>
          (some ret.object, { s with
            cacheCoins := s.cacheCoins.insert txid ret
            cachedCoinsUsage := s.cachedCoinsUsage + ret.object.dynamicMemoryUsage })

/-- `AccessCoins`. -/
def accessCoins (s : CoinsCache) (txid : Uint256) : Option CoinsObject × CoinsCache :=
  s.fetchCoins m txid

/-- `GetCoins`. -/
def getCoins (s : CoinsCache) (txid : Uint256) : Option CCoins × CoinsCache :=
  ((s.fetchCoins m txid).1.map CoinsObject.coins, (s.fetchCoins m txid).2)

/-- `HaveCoins`. -/
def haveCoins (s : CoinsCache) (txid : Uint256) : Bool × CoinsCache :=
  (((s.fetchCoins m txid).1.map fun it => !it.coins.vout.isEmpty).getD false,
    (s.fetchCoins m txid).2)

/-- The destructor of `CCoinsModifier`. -/
def closeModifier (s : CoinsCache) (txid : Uint256) (object : CoinsObject) (fresh : Bool)
    (cachedCoinUsage : ℕ) : Option CoinsCache := do
  let entry := CoinsEntry.ofModifier m object fresh
  -- Subtract the old usage
  let left ← sub s.cachedCoinsUsage cachedCoinUsage
  if fresh && entry.object.coins.isPruned then
    some { s with cacheCoins := s.cacheCoins.erase txid, cachedCoinsUsage := left }
  else
    -- If the coin still exists after the modification, add the new usage
    some { s with
      cacheCoins := s.cacheCoins.insert txid entry
      cachedCoinsUsage := left + entry.object.dynamicMemoryUsage }

/-- What `ModifyCoins` hands out: the object, whether it is `FRESH`, and the memory it occupied as an
entry. -/
def openModifier (s : CoinsCache) (txid : Uint256) : (CoinsObject × Bool × ℕ) × CoinsCache :=
  match s.cacheCoins.lookup txid with
  | some e => ((e.object, e.fresh, e.object.dynamicMemoryUsage), s)
  | none =>
      match s.readBase m txid with
      | (none, s) => ((CoinsObject.cleared, true, 0), s)
      | (some ret, s) => ((ret.object, ret.fresh, 0), s)

/-- `ModifyCoins`, an edit of the object that also gives a result, and the end of the modifier. -/
def modifyCoins {α : Type} (s : CoinsCache) (txid : Uint256)
    (edit : CoinsObject → α × CoinsObject) : Option (α × CoinsCache) :=
  let ((object, fresh, cachedCoinUsage), s) := s.openModifier m txid
  let (result, object) := edit object
  (s.closeModifier m txid object fresh cachedCoinUsage).map (Prod.mk result)

/-- `ModifyNewCoins`, an edit, and the end of the modifier. -/
def modifyNewCoins {α : Type} (s : CoinsCache) (txid : Uint256)
    (edit : CoinsObject → α × CoinsObject) : Option (α × CoinsCache) :=
  let (result, object) := edit CoinsObject.cleared
  (s.closeModifier m txid object true 0).map (Prod.mk result)

/-- The body of the loop over the inputs in `processBlock`. -/
def spendInput (s : CoinsCache) (prevout : COutPoint) :
    Option (Except String (CCoins × CTxInUndo) × CoinsCache) :=
  match s.fetchCoins m prevout.hash with
  | (none, s) => some (.error "bad-txns-inputs-missingorspent", s)
  | (some coin, s) =>
      match coin.coins.vout[prevout.n]? with
      | none => some (.error "bad-txns-inputs-missingorspent", s)
      | some txout =>
          if txout.isNull then some (.error "bad-txns-inputs-missingorspent", s)
          else
            s.modifyCoins m prevout.hash fun modifyCoin =>
              match modifyCoin.spend m prevout.n with
              | none => (.error "bad-txns-inputs-missingorspent", modifyCoin)
              | some modifyCoin =>
                  (.ok (coin.coins, CCoinsViewCache.undoFor txout modifyCoin.coins), modifyCoin)

/-- The loop over the inputs in `processBlock`. -/
def spendInputs (s : CoinsCache) :
    List COutPoint → Option (Except String (List CCoins × CTxUndo) × CoinsCache)
  | [] => some (.ok ([], []), s)
  | prevout :: prevouts => do
      match ← s.spendInput m prevout with
      | (.error e, s) => some (.error e, s)
      | (.ok (coin, undo), s) =>
          match ← s.spendInputs prevouts with
          | (.error e, s) => some (.error e, s)
          | (.ok (inputs, undos), s) => some (.ok (coin :: inputs, undo :: undos), s)

/-- The part of `processBlock` that makes the new coins of a transaction. -/
def createCoins (s : CoinsCache) (tx : CTransaction) (blockHeight : Int32)
    (check : ProcessBlockCheck) : Option (Except String Unit × CoinsCache) :=
  s.modifyCoins m tx.hash fun modifyCoin =>
    if check = .checkDuplicateTxId ∧ ¬ modifyCoin.coins.isPruned then
      (.error "bad-txns-BIP30", modifyCoin)
    else (.ok (), modifyCoin.fromTx m tx blockHeight)

/-- The loop of `processBlock` over the transactions behind the coinbase. -/
def processTransactions (s : CoinsCache) (blockHeight : Int32) (check : ProcessBlockCheck) :
    List CTransaction → Option (Except String (List (List CCoins) × CBlockUndo) × CoinsCache)
  | [] => some (.ok ([], []), s)
  | tx :: txs => do
      match ← s.spendInputs m tx.prevouts with
      | (.error e, s) => some (.error e, s)
      | (.ok (inputs, txundo), s) =>
          match ← s.createCoins m tx blockHeight check with
          | (.error e, s) => some (.error e, s)
          | (.ok _, s) =>
              match ← s.processTransactions blockHeight check txs with
              | (.error e, s) => some (.error e, s)
              | (.ok (answer, undo), s) => some (.ok (inputs :: answer, txundo :: undo), s)

/-- `CCoinsViewCache::processBlock`. -/
def processBlock (s : CoinsCache) (block : List CTransaction) (blockHeight : Int32)
    (check : ProcessBlockCheck) :
    Option (Except String (List (List CCoins) × CBlockUndo) × CoinsCache) :=
  match block with
  | [] => some (.ok ([], []), s)
  | coinbase :: txs => do
      match ← s.createCoins m coinbase blockHeight check with
      | (.error e, s) => some (.error e, s)
      | (.ok _, s) =>
          match ← s.processTransactions m blockHeight check txs with
          | (.error e, s) => some (.error e, s)
          | (.ok (answer, undo), s) => some (.ok ([] :: answer, undo), s)

/-- The body of the loop of `BatchWrite`. -/
def writeEntry (s : CoinsCache) (it : Σ _ : Uint256, CoinsEntry) : Option CoinsCache :=
  if it.2.dirty then
    match s.cacheCoins.lookup it.1 with
    | none =>
        -- The parent cache does not have an entry, while the child does
        if it.2.fresh && it.2.object.coins.isPruned then some s
        else some { s with
          cacheCoins := s.cacheCoins.insert it.1 { it.2 with dirty := true }
          cachedCoinsUsage := s.cachedCoinsUsage + it.2.object.dynamicMemoryUsage }
    | some us => do
        let left ← sub s.cachedCoinsUsage us.object.dynamicMemoryUsage
        if us.fresh && it.2.object.coins.isPruned then
          some { s with cacheCoins := s.cacheCoins.erase it.1, cachedCoinsUsage := left }
        else
          some { s with
            cacheCoins := s.cacheCoins.insert it.1 { it.2 with dirty := true, fresh := us.fresh }
            cachedCoinsUsage := left + it.2.object.dynamicMemoryUsage }
  else some s

/-- `BatchWrite`, with the entries of a child. -/
def batchWrite (s : CoinsCache) (mapCoins : CoinsEntries) (hashBlock : Uint256) :
    Option CoinsCache := do
  let s ← mapCoins.entries.foldlM writeEntry s
  some { s with hashBlock := hashBlock }

/-- `Uncache`. -/
def uncache (s : CoinsCache) (txid : Uint256) : Option CoinsCache :=
  match s.cacheCoins.lookup txid with
  | some e =>
      if !e.dirty && !e.fresh then do
        let left ← sub s.cachedCoinsUsage e.object.dynamicMemoryUsage
        some { s with cacheCoins := s.cacheCoins.erase txid, cachedCoinsUsage := left }
      else some s
  | none => some s

/-- `Flush`. -/
def flush (s : CoinsCache) : CoinsCache where
  cacheCoins := ∅
  hashBlock := s.hashBlock
  cachedCoinsUsage := 0
  base := s.base.batchWrite m.copied (Maps.mapValues CoinsEntry.shown s.cacheCoins) s.hashBlock
  base_clean := s.base_clean.batchWrite (fun _ _ => clean_shown s.cacheCoins) s.hashBlock

end CoinsCache

/-! ## Operations -/

/-- The calls that the users of a cache make. -/
inductive CoinsCacheOp where
  | getCoins (txid : Uint256)
  | accessCoins (txid : Uint256)
  | haveCoins (txid : Uint256)
  | modifyCoins (txid : Uint256) (edit : CoinsObject → CoinsObject)
  | modifyNewCoins (txid : Uint256) (edit : CoinsObject → CoinsObject)
  | processBlock (block : List CTransaction) (blockHeight : Int32) (check : ProcessBlockCheck)
  | batchWrite (mapCoins : CoinsEntries) (hashBlock : Uint256)
  | uncache (txid : Uint256)
  | flush

namespace CoinsCache

/-- An operation; `none` is a subtraction that wraps. -/
def step (m : Allocator) (s : CoinsCache) : CoinsCacheOp → Option CoinsCache
  | .getCoins txid => some (s.getCoins m txid).2
  | .accessCoins txid => some (s.accessCoins m txid).2
  | .haveCoins txid => some (s.haveCoins m txid).2
  | .modifyCoins txid edit => (s.modifyCoins m txid fun o => ((), edit o)).map Prod.snd
  | .modifyNewCoins txid edit => (s.modifyNewCoins m txid fun o => ((), edit o)).map Prod.snd
  | .processBlock block blockHeight check =>
      (s.processBlock m block blockHeight check).map Prod.snd
  | .batchWrite mapCoins hashBlock => s.batchWrite mapCoins hashBlock
  | .uncache txid => s.uncache txid
  | .flush => some (s.flush m)

/-- `ModifyNewCoins` is for transactions without unspent outputs in this cache. -/
def Legal (s : CoinsCache) : CoinsCacheOp → Prop
  | .modifyNewCoins txid _ =>
      ∀ e, s.cacheCoins.lookup txid = some e → e.object.coins.isPruned = true
  | _ => True

end CoinsCache

/-! ## The sum -/

/-- What an entry occupies, if there is one. -/
def CoinsEntry.held (o : Option CoinsEntry) : ℕ := o.elim 0 fun e => e.object.dynamicMemoryUsage

/-- The sum of `DynamicMemoryUsage` over the coins of the entries. -/
def CoinsEntries.total (l : CoinsEntries) : ℤ :=
  Maps.total (fun _ e => (e.object.dynamicMemoryUsage : ℤ)) l

open CoinsEntry (held)

theorem CoinsEntries.total_erase (l : CoinsEntries) (txid : Uint256) :
    CoinsEntries.total (l.erase txid) = l.total - held (l.lookup txid) := by
  rw [CoinsEntries.total, Maps.total_erase]
  cases l.lookup txid with
  | none => rfl
  | some e => rfl

theorem CoinsEntries.total_insert (l : CoinsEntries) (txid : Uint256) (e : CoinsEntry) :
    CoinsEntries.total (l.insert txid e)
      = CoinsEntries.total (l.erase txid) + e.object.dynamicMemoryUsage := by
  rw [CoinsEntries.total, Maps.total_insert, CoinsEntries.total, Maps.total_erase]

theorem CoinsEntries.held_le_total (l : CoinsEntries) (txid : Uint256) :
    (held (l.lookup txid) : ℤ) ≤ l.total := by
  have hnonneg : 0 ≤ CoinsEntries.total (l.erase txid) :=
    Maps.total_nonneg (fun _ _ => Int.natCast_nonneg _) _
  rw [CoinsEntries.total_erase] at hnonneg
  omega

namespace CoinsCache

variable {m : Allocator} {s : CoinsCache} {txid : Uint256}

/-- The counter is the sum. -/
def Exact (s : CoinsCache) : Prop := (s.cachedCoinsUsage : ℤ) = s.cacheCoins.total

/-- What an entry occupies can be taken off; the sum without the entry is left. -/
theorem Exact.sub_held (h : s.Exact) (txid : Uint256) :
    ∃ left, sub s.cachedCoinsUsage (held (s.cacheCoins.lookup txid)) = some left ∧
      (left : ℤ) = CoinsEntries.total (s.cacheCoins.erase txid) := by
  have hle := s.cacheCoins.held_le_total txid
  have hcounter : (s.cachedCoinsUsage : ℤ) = s.cacheCoins.total := h
  rw [← hcounter] at hle
  refine ⟨_, if_pos (Int.ofNat_le.mp hle), ?_⟩
  rw [CoinsEntries.total_erase, ← hcounter]
  omega

theorem Exact.closeModifier (h : s.Exact) {cachedCoinUsage : ℕ}
    (hold : cachedCoinUsage = held (s.cacheCoins.lookup txid)) (object : CoinsObject)
    (fresh : Bool) : ∃ s', s.closeModifier m txid object fresh cachedCoinUsage = some s' ∧
      s'.Exact := by
  obtain ⟨left, hleft, htotal⟩ := h.sub_held txid
  rw [CoinsCache.closeModifier, hold, hleft]
  simp only [Option.bind_eq_bind, Option.bind_some]
  by_cases hdrop : (fresh && (CoinsEntry.ofModifier m object fresh).object.coins.isPruned) = true
  · rw [if_pos hdrop]
    exact ⟨_, rfl, htotal⟩
  · rw [if_neg hdrop]
    refine ⟨_, rfl, ?_⟩
    change ((left + _ : ℕ) : ℤ) = _
    rw [CoinsEntries.total_insert, ← htotal, Int.natCast_add]

/-- Reading leaves the cache as it is, but for what comes into it. -/
theorem Exact.fetchCoins (h : s.Exact) (txid : Uint256) : (s.fetchCoins m txid).2.Exact := by
  rw [CoinsCache.fetchCoins]
  cases he : s.cacheCoins.lookup txid with
  | some e => exact h
  | none =>
    simp only
    obtain ⟨left, hleft, htotal⟩ := h.sub_held txid
    obtain rfl : s.cachedCoinsUsage = left := by
      rw [he] at hleft
      exact Option.some.inj hleft
    cases hread : s.readBase m txid with
    | mk r s' =>
      obtain rfl : (s.readBase m txid).2 = s' := congrArg Prod.snd hread
      cases r with
      | none => exact h
      | some ret =>
        change ((s.cachedCoinsUsage + _ : ℕ) : ℤ) = _
        rw [CoinsEntries.total_insert, Int.natCast_add]
        exact congrArg (· + _) htotal

/-- `ModifyCoins` hands out what the entry occupies. -/
theorem Exact.openModifier (h : s.Exact) (txid : Uint256) :
    (s.openModifier m txid).2.Exact ∧ (s.openModifier m txid).1.2.2
      = held ((s.openModifier m txid).2.cacheCoins.lookup txid) := by
  rw [CoinsCache.openModifier]
  cases he : s.cacheCoins.lookup txid with
  | some e =>
    refine ⟨h, ?_⟩
    change _ = held (s.cacheCoins.lookup txid)
    rw [he]
    rfl
  | none =>
    have hheld : 0 = held ((s.readBase m txid).2.cacheCoins.lookup txid) := by
      change 0 = held (s.cacheCoins.lookup txid)
      rw [he]
      rfl
    simp only
    cases hread : s.readBase m txid with
    | mk r s' =>
      obtain rfl : (s.readBase m txid).2 = s' := congrArg Prod.snd hread
      cases r with
      | none => exact ⟨h, hheld⟩
      | some ret => exact ⟨h, hheld⟩

/-- An operation that gives a result does not fail, and keeps the counter exact. -/
def KeepsExact {α : Type} (r : Option (α × CoinsCache)) : Prop :=
  ∃ a s, r = some (a, s) ∧ s.Exact

theorem Exact.modifyCoins {α : Type} (h : s.Exact) (txid : Uint256)
    (edit : CoinsObject → α × CoinsObject) : KeepsExact (s.modifyCoins m txid edit) := by
  obtain ⟨hs, hold⟩ := h.openModifier (m := m) txid
  obtain ⟨s', hclose, hs'⟩ := hs.closeModifier (m := m) hold
    (edit (s.openModifier m txid).1.1).2 (s.openModifier m txid).1.2.1
  exact ⟨_, s', congrArg (Option.map _) hclose, hs'⟩

/-- `ModifyNewCoins` does not ask what the entry occupied: nothing, if the cache has no unspent
outputs of the transaction. -/
theorem Exact.modifyNewCoins {α : Type} (h : s.Exact)
    (hnew : ∀ e, s.cacheCoins.lookup txid = some e → e.object.coins.isPruned = true)
    (edit : CoinsObject → α × CoinsObject) : KeepsExact (s.modifyNewCoins m txid edit) := by
  have hold : 0 = held (s.cacheCoins.lookup txid) := by
    cases he : s.cacheCoins.lookup txid with
    | none => rfl
    | some e => exact (e.freed (e.clean.isPruned_iff.mp (hnew e he))).symm
  obtain ⟨s', hclose, hs'⟩ := h.closeModifier (m := m) hold (edit CoinsObject.cleared).2 true
  exact ⟨_, s', congrArg (Option.map _) hclose, hs'⟩

/-! ## Blocks -/

theorem Exact.spendInput (h : s.Exact) (prevout : COutPoint) :
    KeepsExact (s.spendInput m prevout) := by
  have hfetch := h.fetchCoins (m := m) prevout.hash
  rw [CoinsCache.spendInput]
  cases hs : s.fetchCoins m prevout.hash with
  | mk r s' =>
    rw [hs] at hfetch
    cases r with
    | none => exact ⟨_, _, rfl, hfetch⟩
    | some coin =>
      simp only
      cases coin.coins.vout[prevout.n]? with
      | none => exact ⟨_, _, rfl, hfetch⟩
      | some txout =>
        simp only
        by_cases hnull : txout.isNull = true
        · rw [if_pos hnull]
          exact ⟨_, _, rfl, hfetch⟩
        · rw [if_neg hnull]
          exact hfetch.modifyCoins _ _

theorem Exact.spendInputs : ∀ (ps : List COutPoint) {s : CoinsCache}, s.Exact →
    KeepsExact (s.spendInputs m ps) := by
  intro ps
  induction ps with
  | nil => exact fun h => ⟨_, _, rfl, h⟩
  | cons p ps ih =>
    intro s h
    obtain ⟨r, s₁, hone, h₁⟩ := h.spendInput (m := m) p
    rw [CoinsCache.spendInputs, hone]
    simp only [Option.bind_eq_bind, Option.bind_some]
    cases r with
    | error e => exact ⟨_, _, rfl, h₁⟩
    | ok r =>
      obtain ⟨r', s₂, hrest, h₂⟩ := ih h₁
      simp only
      rw [hrest]
      cases r' with
      | error e => exact ⟨_, _, rfl, h₂⟩
      | ok r' => exact ⟨_, _, rfl, h₂⟩

theorem Exact.createCoins (h : s.Exact) (tx : CTransaction) (blockHeight : Int32)
    (check : ProcessBlockCheck) : KeepsExact (s.createCoins m tx blockHeight check) :=
  h.modifyCoins _ _

theorem Exact.processTransactions (blockHeight : Int32) (check : ProcessBlockCheck) :
    ∀ (txs : List CTransaction) {s : CoinsCache}, s.Exact →
      KeepsExact (s.processTransactions m blockHeight check txs) := by
  intro txs
  induction txs with
  | nil => exact fun h => ⟨_, _, rfl, h⟩
  | cons tx txs ih =>
    intro s h
    obtain ⟨r, s₁, hspend, h₁⟩ := Exact.spendInputs (m := m) tx.prevouts h
    rw [CoinsCache.processTransactions, hspend]
    simp only [Option.bind_eq_bind, Option.bind_some]
    cases r with
    | error e => exact ⟨_, _, rfl, h₁⟩
    | ok r =>
      obtain ⟨r', s₂, hcreate, h₂⟩ := h₁.createCoins (m := m) tx blockHeight check
      simp only
      rw [hcreate]
      cases r' with
      | error e => exact ⟨_, _, rfl, h₂⟩
      | ok r' =>
        obtain ⟨r'', s₃, hrest, h₃⟩ := ih h₂
        simp only [Option.bind_some]
        rw [hrest]
        cases r'' with
        | error e => exact ⟨_, _, rfl, h₃⟩
        | ok r'' => exact ⟨_, _, rfl, h₃⟩

/-- Also when it throws in the middle. -/
theorem Exact.processBlock (h : s.Exact) (block : List CTransaction) (blockHeight : Int32)
    (check : ProcessBlockCheck) : KeepsExact (s.processBlock m block blockHeight check) := by
  cases block with
  | nil => exact ⟨_, _, rfl, h⟩
  | cons coinbase txs =>
    obtain ⟨r, s₁, hcreate, h₁⟩ := h.createCoins (m := m) coinbase blockHeight check
    rw [CoinsCache.processBlock, hcreate]
    simp only [Option.bind_eq_bind, Option.bind_some]
    cases r with
    | error e => exact ⟨_, _, rfl, h₁⟩
    | ok r =>
      obtain ⟨r', s₂, hrest, h₂⟩ := Exact.processTransactions (m := m) blockHeight check txs h₁
      simp only
      rw [hrest]
      cases r' with
      | error e => exact ⟨_, _, rfl, h₂⟩
      | ok r' => exact ⟨_, _, rfl, h₂⟩

/-! ## Writing -/

theorem Exact.writeEntry (h : s.Exact) (it : Σ _ : Uint256, CoinsEntry) :
    ∃ s', s.writeEntry it = some s' ∧ s'.Exact := by
  obtain ⟨left, hleft, htotal⟩ := h.sub_held it.1
  rw [CoinsCache.writeEntry]
  by_cases hd : it.2.dirty = true
  · rw [if_pos hd]
    cases he : s.cacheCoins.lookup it.1 with
    | none =>
      obtain rfl : s.cachedCoinsUsage = left := by
        rw [he] at hleft
        exact Option.some.inj hleft
      simp only
      by_cases hdrop : (it.2.fresh && it.2.object.coins.isPruned) = true
      · rw [if_pos hdrop]
        exact ⟨_, rfl, h⟩
      · rw [if_neg hdrop]
        refine ⟨_, rfl, ?_⟩
        change ((s.cachedCoinsUsage + _ : ℕ) : ℤ) = _
        rw [CoinsEntries.total_insert, ← htotal, Int.natCast_add]
    | some us =>
      rw [he] at hleft
      change sub s.cachedCoinsUsage us.object.dynamicMemoryUsage = some left at hleft
      simp only [hleft, Option.bind_eq_bind, Option.bind_some]
      by_cases hdrop : (us.fresh && it.2.object.coins.isPruned) = true
      · rw [if_pos hdrop]
        exact ⟨_, rfl, htotal⟩
      · rw [if_neg hdrop]
        refine ⟨_, rfl, ?_⟩
        change ((left + _ : ℕ) : ℤ) = _
        rw [CoinsEntries.total_insert, ← htotal, Int.natCast_add]
  · rw [if_neg hd]
    exact ⟨_, rfl, h⟩

theorem Exact.batchWrite (h : s.Exact) (mapCoins : CoinsEntries) (hashBlock : Uint256) :
    ∃ s', s.batchWrite mapCoins hashBlock = some s' ∧ s'.Exact := by
  obtain ⟨s', hrun, hs'⟩ :=
    Runs.foldlM_total (fun t it _ ht => Exact.writeEntry ht it) h
  rw [CoinsCache.batchWrite, hrun]
  exact ⟨_, rfl, hs'⟩

theorem Exact.uncache (h : s.Exact) (txid : Uint256) : ∃ s', s.uncache txid = some s' ∧ s'.Exact := by
  obtain ⟨left, hleft, htotal⟩ := h.sub_held txid
  rw [CoinsCache.uncache]
  cases he : s.cacheCoins.lookup txid with
  | none => exact ⟨_, rfl, h⟩
  | some e =>
    rw [he] at hleft
    change sub s.cachedCoinsUsage e.object.dynamicMemoryUsage = some left at hleft
    simp only [hleft, Option.bind_eq_bind, Option.bind_some]
    by_cases hflags : (!e.dirty && !e.fresh) = true
    · rw [if_pos hflags]
      exact ⟨_, rfl, htotal⟩
    · rw [if_neg hflags]
      exact ⟨_, rfl, h⟩

/-! ## Runs -/

theorem exact_create (base : CCoinsView) (h : base.Clean) : (create base h).Exact := rfl

theorem exact_flush (m : Allocator) (s : CoinsCache) : (s.flush m).Exact := rfl

theorem KeepsExact.map_snd {α : Type} {r : Option (α × CoinsCache)} (h : KeepsExact r) :
    ∃ s', r.map Prod.snd = some s' ∧ s'.Exact := by
  obtain ⟨a, s', rfl, hs'⟩ := h
  exact ⟨s', rfl, hs'⟩

/-- **One operation.** -/
theorem Exact.step (h : s.Exact) {op : CoinsCacheOp} (hlegal : s.Legal op) :
    ∃ s', s.step m op = some s' ∧ s'.Exact := by
  cases op with
  | getCoins txid => exact ⟨_, rfl, h.fetchCoins txid⟩
  | accessCoins txid => exact ⟨_, rfl, h.fetchCoins txid⟩
  | haveCoins txid => exact ⟨_, rfl, h.fetchCoins txid⟩
  | modifyCoins txid edit => exact (h.modifyCoins txid _).map_snd
  | modifyNewCoins txid edit => exact (h.modifyNewCoins hlegal _).map_snd
  | processBlock block blockHeight check =>
    exact (h.processBlock block blockHeight check).map_snd
  | batchWrite mapCoins hashBlock => exact h.batchWrite mapCoins hashBlock
  | uncache txid => exact h.uncache txid
  | flush => exact ⟨_, rfl, exact_flush m s⟩

/-- **The memory of a cache.**  Whatever is done with a new cache, no subtraction wraps, and between
the operations `cachedCoinsUsage` is the sum of what the coins in the cache occupy. -/
theorem always_exact (m : Allocator) {base : CCoinsView} (hbase : base.Clean)
    (ops : List CoinsCacheOp) (hlegal : Runs.Each (CoinsCache.step m) Legal (create base hbase) ops) :
    Runs.Always (CoinsCache.step m) Exact (create base hbase) ops :=
  Runs.always_of_each (fun _ _ hs hl => Exact.step hs hl) ops _ (exact_create base hbase) hlegal

/-- `memusage::MallocUsage`, with pointers of 8 bytes. -/
def mallocUsage (alloc : ℕ) : ℕ := if alloc = 0 then 0 else (alloc + 31) >>> 4 <<< 4

/-- An output has 40 bytes, and short scripts lie in it.  A vector never shrinks. -/
def shortScripts : Allocator where
  copied c := mallocUsage (40 * c.vout.length)
  changed o c := max o.dynamicMemoryUsage (mallocUsage (40 * c.vout.length))
  copied_nil c h := by rw [h]; rfl

/-- New coins, a block, and one that throws in the middle; then all goes to the database, and one
record is read again and dropped. -/
def blocksAndFlush : List CoinsCacheOp := [
  .modifyNewCoins 9 fun o => o.fromTx shortScripts ⟨9, 1, [], [⟨5, [0x51]⟩], 0⟩ 1,
  .processBlock CCoinsViewCache.chainBlock 1 .checkDuplicateTxId,
  .processBlock [⟨4, 1, [CCoinsViewCache.coinbaseInput], [⟨5, [0x51]⟩], 0⟩,
    ⟨5, 1, [⟨⟨4, 0⟩, [], 0⟩, ⟨⟨1, 0⟩, [], 0⟩], [⟨5, [0x51]⟩], 0⟩] 2 .checkDuplicateTxId,
  .flush, .getCoins 9, .uncache 9]

theorem always_exact_blocksAndFlush :
    Runs.Always (step shortScripts) Exact
      (create (.db ⟨∅, 0⟩) fun _ _ h => by cases h) blocksAndFlush := by
  apply always_exact shortScripts
  refine ⟨fun e he => ?_, fun _ _ => ⟨trivial, fun _ _ => ⟨trivial, fun _ _ => ⟨trivial, fun _ _ =>
    ⟨trivial, fun _ _ => ⟨trivial, fun _ _ => trivial⟩⟩⟩⟩⟩⟩
  cases he

end CoinsCache
