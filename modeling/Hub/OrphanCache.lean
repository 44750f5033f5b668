/-
# The orphan cache

`CTxOrphanCache` (`libs/server/txorphancache.cpp`): the transactions whose inputs are not there yet,
and for each transaction that is waited for which of them wait.  Both maps change together
(`Indexed`), however transactions come, go, grow old or are evicted at random.

So the second map has a key exactly for the transactions that are waited for, with all that wait for
it, and `fetchTransactionsByPrev` never throws (`run_exact`).
-/
import Hub.ByteCodec
import Hub.Maps
import Hub.Transaction
import Mathlib

open ByteCodec

/-- `CTxOrphanCache::COrphanTx`. -/
structure COrphanTx where
  tx : CTransaction
  fromPeer : Int32
  nEntryTime : UInt64
  onResultFlags : UInt32
  deriving DecidableEq

/-- `CTxOrphanCache`.  `nLastOrphanCheck` is the static variable of `EraseOrphansByTime`. -/
structure CTxOrphanCache where
  mapOrphanTransactions : AList fun _ : Uint256 => COrphanTx
  mapOrphanTransactionsByPrev : AList fun _ : Uint256 => List Uint256
  limit : UInt32
  nLastOrphanCheck : Option ℤ

/-- The order of `uint256` in maps and sets, which is that of its bytes. -/
def Uint256.Before (a b : Uint256) : Prop := ¬ leBytes 32 b.toNat < leBytes 32 a.toNat

instance : DecidableRel Uint256.Before := fun a b =>
  inferInstanceAs (Decidable (¬ leBytes 32 b.toNat < leBytes 32 a.toNat))

namespace CTransaction

/-- The transactions that the inputs spend from, one for each input. -/
def prevHashes (tx : CTransaction) : List Uint256 := tx.vin.map fun txin => txin.prevout.hash

end CTransaction

namespace CTxOrphanCache

/-! ## The operations -/

/-- The insertion into a set. -/
def setInsert (hash : Uint256) (set : List Uint256) : List Uint256 :=
  if hash ∈ set then set else set.orderedInsert Uint256.Before hash

/-- The removal from a set. -/
def setErase (hash : Uint256) (set : List Uint256) : List Uint256 := set.filter (· ≠ hash)

/-- The body of the loop over the inputs when a transaction comes in. -/
def addByPrev (hash : Uint256) (byPrev : AList fun _ : Uint256 => List Uint256) (prev : Uint256) :
    AList fun _ : Uint256 => List Uint256 :=
  byPrev.insert prev (setInsert hash ((byPrev.lookup prev).getD []))

/-- The body of the loop over the inputs when a transaction goes. -/
def eraseByPrev (hash : Uint256) (byPrev : AList fun _ : Uint256 => List Uint256) (prev : Uint256) :
    AList fun _ : Uint256 => List Uint256 :=
  match byPrev.lookup prev with
  | none => byPrev
  | some set =>
      if (setErase hash set).isEmpty then byPrev.erase prev
      else byPrev.insert prev (setErase hash set)

/-- `AddOrphanTx`, at the time `now`. -/
def addOrphanTx (s : CTxOrphanCache) (tx : CTransaction) (peer : Int32) (onResultFlags : UInt32)
    (originalEntryTime now : UInt64) : Bool × CTxOrphanCache :=
  if (s.mapOrphanTransactions.lookup tx.hash).isSome then (false, s)
  else if tx.serializeSize > 100000 then (false, s)
  else
    let nEntryTime := if originalEntryTime = 0 then now else originalEntryTime
    (true, { s with
      mapOrphanTransactions :=
        s.mapOrphanTransactions.insert tx.hash ⟨tx, peer, nEntryTime, onResultFlags⟩
      mapOrphanTransactionsByPrev :=
        tx.prevHashes.foldl (addByPrev tx.hash) s.mapOrphanTransactionsByPrev })

/-- `EraseOrphanTx`. -/
def eraseOrphanTx (s : CTxOrphanCache) (hash : Uint256) : CTxOrphanCache :=
  match s.mapOrphanTransactions.lookup hash with
  | none => s
  | some entry => { s with
      mapOrphanTransactions := s.mapOrphanTransactions.erase hash
      mapOrphanTransactionsByPrev :=
        entry.tx.prevHashes.foldl (eraseByPrev hash) s.mapOrphanTransactionsByPrev }

/-- `EraseOrphans`; its loop has the statements of `EraseOrphanTx` once more. -/
def eraseOrphans (s : CTxOrphanCache) (txIds : List Uint256) : CTxOrphanCache :=
  txIds.foldl (fun s hash =>
    match s.mapOrphanTransactions.lookup hash with
    | none => s
    | some entry => { s with
        mapOrphanTransactions := s.mapOrphanTransactions.erase hash
        mapOrphanTransactionsByPrev :=
          entry.tx.prevHashes.foldl (eraseByPrev hash) s.mapOrphanTransactionsByPrev }) s

/-- The keys of the first map from `begin()` on. -/
def sortedKeys (s : CTxOrphanCache) : List Uint256 :=
  s.mapOrphanTransactions.keys.insertionSort Uint256.Before

/-- The loop of `EraseOrphansByTime`, from the iterator to the first key on; `none` is an iterator
to an entry that is gone. -/
def eraseOldLoop (nOrphanTxCutoffTime : ℤ) : List Uint256 → CTxOrphanCache → Option CTxOrphanCache
  | [], s => some s
  | key :: keys, s =>
      match s.mapOrphanTransactions.lookup key with
      | none => none
      | some entry =>
          eraseOldLoop nOrphanTxCutoffTime keys
            (if entry.nEntryTime.toInt64.toInt < nOrphanTxCutoffTime then
              s.eraseOrphanTx entry.tx.hash
            else s)

/-- `EraseOrphansByTime`; `now` is what `GetTime` returns at the check, and `later` what it returns
in the end. -/
def eraseOrphansByTime (s : CTxOrphanCache) (mempoolexpiry now later : ℤ) : Option CTxOrphanCache :=
  let nLastOrphanCheck := s.nLastOrphanCheck.getD now
  if now < nLastOrphanCheck + 5 * 60 then some { s with nLastOrphanCheck := some nLastOrphanCheck }
  else do
    let s ← eraseOldLoop (now - mempoolexpiry * 60 * 60) s.sortedKeys s
    some { s with nLastOrphanCheck := some later }

/-- `lower_bound`, or `begin()` if that is the end. -/
def victim (s : CTxOrphanCache) (randomhash : Uint256) : Option Uint256 :=
  (s.sortedKeys.find? fun key => decide (Uint256.Before randomhash key)).or s.sortedKeys.head?

/-- The loop of `LimitOrphanTxSize`, with the random hashes to come; `none` is a victim that is not
there, or a loop that is still going. -/
def limitLoop (nMaxOrphans : UInt32) : ℕ → (ℕ → Uint256) → UInt32 → CTxOrphanCache →
    Option (UInt32 × CTxOrphanCache)
  | fuel, rand, nEvicted, s =>
      if s.mapOrphanTransactions.entries.length ≤ nMaxOrphans.toNat then some (nEvicted, s)
      else
        match fuel with
        | 0 => none
        | fuel + 1 => do
            let hash ← s.victim (rand 0)
            limitLoop nMaxOrphans fuel (fun n => rand (n + 1)) (nEvicted + 1) (s.eraseOrphanTx hash)

/-- `LimitOrphanTxSize`, with a round for every entry. -/
def limitOrphanTxSize (s : CTxOrphanCache) (nMaxOrphans : UInt32) (rand : ℕ → Uint256) :
    Option (UInt32 × CTxOrphanCache) :=
  limitLoop nMaxOrphans s.mapOrphanTransactions.entries.length rand 0 s

/-- `clear`. -/
def clear (s : CTxOrphanCache) : CTxOrphanCache :=
  { s with mapOrphanTransactions := ∅, mapOrphanTransactionsByPrev := ∅ }

/-- `setLimit`. -/
def setLimit (s : CTxOrphanCache) (limit : UInt32) : CTxOrphanCache := { s with limit := limit }

/-- `fetchTransactionsByPrev`; `none` is the exception that `at` throws. -/
def fetchTransactionsByPrev (s : CTxOrphanCache) (txid : Uint256) : Option (List COrphanTx) :=
  match s.mapOrphanTransactionsByPrev.lookup txid with
  | none => some []
  | some set => set.mapM s.mapOrphanTransactions.lookup

/-- The calls that change the cache. -/
inductive Call where
  | add (tx : CTransaction) (peer : Int32) (onResultFlags : UInt32) (originalEntryTime now : UInt64)
  | erase (txIds : List Uint256)
  | eraseByTime (mempoolexpiry now later : ℤ)
  | limit (nMaxOrphans : UInt32) (rand : ℕ → Uint256)
  | limitDefault (rand : ℕ → Uint256)
  | setLimit (limit : UInt32)
  | clear

def step (s : CTxOrphanCache) : Call → Option CTxOrphanCache
  | .add tx peer onResultFlags originalEntryTime now =>
      some (s.addOrphanTx tx peer onResultFlags originalEntryTime now).2
  | .erase txIds => some (s.eraseOrphans txIds)
  | .eraseByTime mempoolexpiry now later => s.eraseOrphansByTime mempoolexpiry now later
  | .limit nMaxOrphans rand => (s.limitOrphanTxSize nMaxOrphans rand).map Prod.snd
  | .limitDefault rand => (s.limitOrphanTxSize s.limit rand).map Prod.snd
  | .setLimit limit => some (s.setLimit limit)
  | .clear => some s.clear

/-- A new cache; `-maxorphantx` gives the limit. -/
def init (limit : UInt32) : CTxOrphanCache := ⟨∅, ∅, limit, none⟩

def run (s : CTxOrphanCache) (calls : List Call) : Option CTxOrphanCache := calls.foldlM step s

/-! ## The maps go together -/

/-- The second map is the index of the first. -/
structure Indexed (s : CTxOrphanCache) : Prop where
  keyed : ∀ hash entry, s.mapOrphanTransactions.lookup hash = some entry → entry.tx.hash = hash
  index : ∀ prev hash, hash ∈ (s.mapOrphanTransactionsByPrev.lookup prev).getD [] ↔
    ∃ entry, s.mapOrphanTransactions.lookup hash = some entry ∧ prev ∈ entry.tx.prevHashes
  nonempty : ∀ prev set, s.mapOrphanTransactionsByPrev.lookup prev = some set → set ≠ []
  nodup : ∀ prev set, s.mapOrphanTransactionsByPrev.lookup prev = some set → set.Nodup

/-! ### Sets -/

theorem mem_setInsert {hash hash' : Uint256} {set : List Uint256} :
    hash' ∈ setInsert hash set ↔ hash' = hash ∨ hash' ∈ set := by
  rw [setInsert]
  split
  · next hmem =>
    constructor
    · exact .inr
    · rintro (rfl | h)
      · exact hmem
      · exact h
  · exact List.mem_orderedInsert _

theorem nodup_setInsert {hash : Uint256} {set : List Uint256} (h : set.Nodup) :
    (setInsert hash set).Nodup := by
  rw [setInsert]
  split
  · exact h
  · next hmem => exact (List.perm_orderedInsert _ hash set).nodup_iff.mpr (h.cons hmem)

theorem setInsert_ne_nil (hash : Uint256) (set : List Uint256) : setInsert hash set ≠ [] :=
  List.ne_nil_of_mem (mem_setInsert.mpr (.inl rfl))

theorem setInsert_again (hash : Uint256) (set : List Uint256) :
    setInsert hash (setInsert hash set) = setInsert hash set := by
  rw [setInsert, if_pos (mem_setInsert.mpr (.inl rfl))]

theorem mem_setErase {hash hash' : Uint256} {set : List Uint256} :
    hash' ∈ setErase hash set ↔ hash' ∈ set ∧ hash' ≠ hash := by
  rw [setErase, List.mem_filter, decide_eq_true_iff]

theorem setErase_again (hash : Uint256) (set : List Uint256) :
    setErase hash (setErase hash set) = setErase hash set := by
  rw [setErase, setErase, List.filter_filter]
  simp

/-! ### Entries come in -/

/-- The loop over the inputs puts the transaction behind every key of an input. -/
theorem lookup_foldl_addByPrev (hash : Uint256) (prevs : List Uint256)
    (byPrev : AList fun _ : Uint256 => List Uint256) (prev : Uint256) :
    (prevs.foldl (addByPrev hash) byPrev).lookup prev =
      if prev ∈ prevs then some (setInsert hash ((byPrev.lookup prev).getD []))
      else byPrev.lookup prev := by
  apply Maps.foldl_keys (addByPrev hash)
    (fun (byPrev : AList fun _ : Uint256 => List Uint256) prev => byPrev.lookup prev)
    (fun set => some (setInsert hash (set.getD [])))
  · intro byPrev prev
    exact AList.lookup_insert _
  · intro byPrev prev prev' hne
    exact AList.lookup_insert_ne hne
  · intro set
    rw [Option.getD_some, setInsert_again]

theorem Indexed.addOrphanTx {s : CTxOrphanCache} (h : s.Indexed) (tx : CTransaction)
    (peer : Int32) (onResultFlags : UInt32) (originalEntryTime now : UInt64) :
    (s.addOrphanTx tx peer onResultFlags originalEntryTime now).2.Indexed := by
  rw [CTxOrphanCache.addOrphanTx]
  split
  · exact h
  · next hnew =>
    rw [Option.not_isSome_iff_eq_none] at hnew
    split
    · exact h
    · refine ⟨?_, ?_, ?_, ?_⟩
      · intro hash entry hlookup
        by_cases hsame : hash = tx.hash
        · subst hsame
          rw [AList.lookup_insert] at hlookup
          obtain rfl := Option.some.inj hlookup
          rfl
        · rw [AList.lookup_insert_ne hsame] at hlookup
          exact h.keyed hash entry hlookup
      · intro prev hash
        rw [lookup_foldl_addByPrev]
        by_cases hsame : hash = tx.hash
        · subst hsame
          rw [AList.lookup_insert]
          have hold : tx.hash ∉ (s.mapOrphanTransactionsByPrev.lookup prev).getD [] := by
            intro hmem
            obtain ⟨entry, hlookup, -⟩ := (h.index prev tx.hash).mp hmem
            rw [hnew] at hlookup
            cases hlookup
          by_cases hprev : prev ∈ tx.prevHashes
          · rw [if_pos hprev, Option.getD_some, mem_setInsert]
            exact ⟨fun _ => ⟨_, rfl, hprev⟩, fun _ => .inl rfl⟩
          · rw [if_neg hprev]
            constructor
            · intro hmem
              exact absurd hmem hold
            · rintro ⟨entry, hentry, hmem⟩
              obtain rfl := Option.some.inj hentry
              exact absurd hmem hprev
        · rw [AList.lookup_insert_ne hsame, ← h.index prev hash]
          split
          · rw [Option.getD_some, mem_setInsert, or_iff_right hsame]
          · rfl
      · intro prev set hlookup
        rw [lookup_foldl_addByPrev] at hlookup
        split at hlookup
        · obtain rfl := Option.some.inj hlookup
          exact setInsert_ne_nil _ _
        · exact h.nonempty prev set hlookup
      · intro prev set hlookup
        rw [lookup_foldl_addByPrev] at hlookup
        split at hlookup
        · obtain rfl := Option.some.inj hlookup
          apply nodup_setInsert
          cases hold : s.mapOrphanTransactionsByPrev.lookup prev with
          | none => exact List.nodup_nil
          | some set => exact h.nodup prev set hold
        · exact h.nodup prev set hlookup

/-! ### Entries go -/

/-- A set without a transaction; an empty set is no longer there. -/
def without (hash : Uint256) (set : Option (List Uint256)) : Option (List Uint256) :=
  set.bind fun set => if (setErase hash set).isEmpty then none else some (setErase hash set)

theorem without_again (hash : Uint256) (set : Option (List Uint256)) :
    without hash (without hash set) = without hash set := by
  cases set with
  | none => rfl
  | some set =>
    rw [without, without, Option.bind_some]
    split
    · rfl
    · next hne => rw [Option.bind_some, setErase_again, if_neg hne]

theorem mem_without {hash hash' : Uint256} {set : Option (List Uint256)} :
    hash' ∈ (without hash set).getD [] ↔ hash' ∈ set.getD [] ∧ hash' ≠ hash := by
  cases set with
  | none => simp [without]
  | some set =>
    rw [without, Option.bind_some, Option.getD_some, ← mem_setErase]
    split
    · next hempty =>
      rw [List.isEmpty_iff.mp hempty]
      rfl
    · rfl

/-- The loop over the inputs takes the transaction out behind every key of an input. -/
theorem lookup_foldl_eraseByPrev (hash : Uint256) (prevs : List Uint256)
    (byPrev : AList fun _ : Uint256 => List Uint256) (prev : Uint256) :
    (prevs.foldl (eraseByPrev hash) byPrev).lookup prev =
      if prev ∈ prevs then without hash (byPrev.lookup prev) else byPrev.lookup prev := by
  apply Maps.foldl_keys (eraseByPrev hash)
    (fun (byPrev : AList fun _ : Uint256 => List Uint256) prev => byPrev.lookup prev)
    (without hash)
  · intro byPrev prev
    rw [eraseByPrev]
    cases hset : byPrev.lookup prev with
    | none => exact hset
    | some set =>
      change (if (setErase hash set).isEmpty then byPrev.erase prev
        else byPrev.insert prev (setErase hash set)).lookup prev = without hash (some set)
      rw [without, Option.bind_some]
      split
      · exact AList.lookup_erase _ _
      · exact AList.lookup_insert _
  · intro byPrev prev prev' hne
    rw [eraseByPrev]
    split
    · rfl
    · split
      · exact AList.lookup_erase_ne hne
      · exact AList.lookup_insert_ne hne
  · exact without_again hash

theorem Indexed.eraseOrphanTx {s : CTxOrphanCache} (h : s.Indexed) (hash : Uint256) :
    (s.eraseOrphanTx hash).Indexed := by
  rw [CTxOrphanCache.eraseOrphanTx]
  cases hentry : s.mapOrphanTransactions.lookup hash with
  | none => exact h
  | some entry =>
    have hlookup : ∀ prev, (entry.tx.prevHashes.foldl (eraseByPrev hash)
        s.mapOrphanTransactionsByPrev).lookup prev =
          without hash (s.mapOrphanTransactionsByPrev.lookup prev) ∨
        (entry.tx.prevHashes.foldl (eraseByPrev hash)
          s.mapOrphanTransactionsByPrev).lookup prev =
            s.mapOrphanTransactionsByPrev.lookup prev := by
      intro prev
      rw [lookup_foldl_eraseByPrev]
      split
      · exact .inl rfl
      · exact .inr rfl
    refine ⟨?_, ?_, ?_, ?_⟩
    · intro hash' entry' hlookup'
      by_cases hsame : hash' = hash
      · subst hsame
        rw [AList.lookup_erase] at hlookup'
        cases hlookup'
      · rw [AList.lookup_erase_ne hsame] at hlookup'
        exact h.keyed hash' entry' hlookup'
    · intro prev hash'
      rw [lookup_foldl_eraseByPrev]
      by_cases hsame : hash' = hash
      · subst hsame
        rw [AList.lookup_erase]
        refine ⟨fun hmem => ?_, fun ⟨entry', hentry', _⟩ => by cases hentry'⟩
        by_cases hprev : prev ∈ entry.tx.prevHashes
        · rw [if_pos hprev] at hmem
          exact absurd rfl (mem_without.mp hmem).2
        · -- the transaction was not behind the key
          rw [if_neg hprev] at hmem
          obtain ⟨entry', hentry', hmem'⟩ := (h.index prev hash').mp hmem
          rw [hentry] at hentry'
          obtain rfl := Option.some.inj hentry'
          exact absurd hmem' hprev
      · rw [AList.lookup_erase_ne hsame, ← h.index prev hash']
        split
        · rw [mem_without, and_iff_left hsame]
        · rfl
    · intro prev set hset
      rcases hlookup prev with hwithout | hsame
      · rw [hwithout] at hset
        obtain ⟨old, -, hold⟩ := Option.bind_eq_some_iff.mp hset
        split at hold
        · cases hold
        · next hne =>
          obtain rfl := Option.some.inj hold
          intro hnil
          exact hne (List.isEmpty_iff.mpr hnil)
      · rw [hsame] at hset
        exact h.nonempty prev set hset
    · intro prev set hset
      rcases hlookup prev with hwithout | hsame
      · rw [hwithout] at hset
        obtain ⟨old, hlookup', hold⟩ := Option.bind_eq_some_iff.mp hset
        split at hold
        · cases hold
        · obtain rfl := Option.some.inj hold
          exact (h.nodup prev old hlookup').filter _
      · rw [hsame] at hset
        exact h.nodup prev set hset

theorem Indexed.eraseOrphans {s : CTxOrphanCache} (h : s.Indexed) (txIds : List Uint256) :
    (s.eraseOrphans txIds).Indexed := by
  induction txIds generalizing s with
  | nil => exact h
  | cons hash txIds ih => exact ih (h.eraseOrphanTx hash)

theorem indexed_empty (limit : UInt32) (nLastOrphanCheck : Option ℤ) :
    Indexed ⟨∅, ∅, limit, nLastOrphanCheck⟩ where
  keyed := by
    intro hash entry h
    cases h
  index := by
    intro prev hash
    constructor
    · intro h
      cases h
    · rintro ⟨entry, h, -⟩
      cases h
  nonempty := by
    intro prev set h
    cases h
  nodup := by
    intro prev set h
    cases h

/-! ## Walking through the map -/

theorem lookup_eraseOrphanTx_ne (s : CTxOrphanCache) {hash hash' : Uint256} (h : hash' ≠ hash) :
    (s.eraseOrphanTx hash).mapOrphanTransactions.lookup hash' =
      s.mapOrphanTransactions.lookup hash' := by
  rw [CTxOrphanCache.eraseOrphanTx]
  split
  · rfl
  · exact AList.lookup_erase_ne h

/-- The iterator of `EraseOrphansByTime` always stands on an entry. -/
theorem Indexed.eraseOldLoop (nOrphanTxCutoffTime : ℤ) : ∀ (keys : List Uint256)
    {s : CTxOrphanCache}, s.Indexed → keys.Nodup →
    (∀ key ∈ keys, ∃ entry, s.mapOrphanTransactions.lookup key = some entry) →
    ∃ s', CTxOrphanCache.eraseOldLoop nOrphanTxCutoffTime keys s = some s' ∧ s'.Indexed := by
  intro keys
  induction keys with
  | nil =>
    intro s h _ _
    exact ⟨s, rfl, h⟩
  | cons key keys ih =>
    intro s h hnodup hkeys
    obtain ⟨hnew, hnodup'⟩ := List.nodup_cons.mp hnodup
    obtain ⟨entry, hentry⟩ := hkeys key List.mem_cons_self
    have hkeys' : ∀ key' ∈ keys, ∃ entry, s.mapOrphanTransactions.lookup key' = some entry :=
      fun key' hkey' => hkeys key' (List.mem_cons_of_mem key hkey')
    rw [CTxOrphanCache.eraseOldLoop, hentry]
    change ∃ s', CTxOrphanCache.eraseOldLoop nOrphanTxCutoffTime keys
      (if entry.nEntryTime.toInt64.toInt < nOrphanTxCutoffTime then
        s.eraseOrphanTx entry.tx.hash else s) = some s' ∧ s'.Indexed
    by_cases hold : entry.nEntryTime.toInt64.toInt < nOrphanTxCutoffTime
    · -- only the entry itself goes, so that the next one is still there
      rw [if_pos hold, h.keyed key entry hentry]
      apply ih (h.eraseOrphanTx key) hnodup'
      intro key' hkey'
      have hne : key' ≠ key := fun hsame => hnew (hsame ▸ hkey')
      rw [lookup_eraseOrphanTx_ne s hne]
      exact hkeys' key' hkey'
    · rw [if_neg hold]
      exact ih h hnodup' hkeys'

theorem mem_sortedKeys {s : CTxOrphanCache} {key : Uint256} :
    key ∈ s.sortedKeys ↔ ∃ entry, s.mapOrphanTransactions.lookup key = some entry := by
  rw [sortedKeys, List.mem_insertionSort, ← AList.mem_keys, ← AList.lookup_isSome,
    Option.isSome_iff_exists]

theorem nodup_sortedKeys (s : CTxOrphanCache) : s.sortedKeys.Nodup :=
  (List.perm_insertionSort _ _).nodup_iff.mpr s.mapOrphanTransactions.keys_nodup

theorem Indexed.eraseOrphansByTime {s : CTxOrphanCache} (h : s.Indexed)
    (mempoolexpiry now later : ℤ) :
    ∃ s', s.eraseOrphansByTime mempoolexpiry now later = some s' ∧ s'.Indexed := by
  rw [CTxOrphanCache.eraseOrphansByTime]
  by_cases hearly : now < s.nLastOrphanCheck.getD now + 5 * 60
  · rw [if_pos hearly]
    exact ⟨_, rfl, h.keyed, h.index, h.nonempty, h.nodup⟩
  · rw [if_neg hearly]
    obtain ⟨s', hloop, h'⟩ := h.eraseOldLoop (now - mempoolexpiry * 60 * 60) s.sortedKeys
      (nodup_sortedKeys s) fun key hkey => mem_sortedKeys.mp hkey
    rw [hloop]
    exact ⟨_, rfl, h'.keyed, h'.index, h'.nonempty, h'.nodup⟩

/-! ## Evicting -/

/-- The number of entries is the sum of a one for each. -/
theorem total_one (m : AList fun _ : Uint256 => COrphanTx) :
    Maps.total (fun _ _ => 1) m = m.entries.length := by
  rw [Maps.total, List.map_const', List.sum_replicate, nsmul_one]

theorem length_eraseOrphanTx {s : CTxOrphanCache} {hash : Uint256} {entry : COrphanTx}
    (h : s.mapOrphanTransactions.lookup hash = some entry) :
    (s.eraseOrphanTx hash).mapOrphanTransactions.entries.length + 1 =
      s.mapOrphanTransactions.entries.length := by
  have htotal := Maps.total_erase (fun _ _ => 1) hash s.mapOrphanTransactions
  rw [h, Option.elim_some, total_one, total_one] at htotal
  rw [CTxOrphanCache.eraseOrphanTx, h]
  change (s.mapOrphanTransactions.erase hash).entries.length + 1 = _
  omega

theorem exists_victim {s : CTxOrphanCache} (h : s.mapOrphanTransactions.entries ≠ [])
    (randomhash : Uint256) : ∃ hash entry, s.victim randomhash = some hash ∧
      s.mapOrphanTransactions.lookup hash = some entry := by
  rw [victim]
  cases hfind : s.sortedKeys.find? fun key => decide (Uint256.Before randomhash key) with
  | some hash =>
    obtain ⟨entry, hentry⟩ := mem_sortedKeys.mp (List.mem_of_find?_eq_some hfind)
    exact ⟨hash, entry, rfl, hentry⟩
  | none =>
    have hne : s.sortedKeys ≠ [] := by
      intro hnil
      have hlen := congrArg List.length hnil
      rw [sortedKeys, List.length_insertionSort, AList.keys, List.keys, List.length_map] at hlen
      exact h (List.length_eq_zero_iff.mp hlen)
    obtain ⟨hash, keys, hkeys⟩ := List.exists_cons_of_ne_nil hne
    obtain ⟨entry, hentry⟩ := mem_sortedKeys.mp (show hash ∈ s.sortedKeys by
      rw [hkeys]
      exact List.mem_cons_self)
    rw [hkeys]
    exact ⟨hash, entry, rfl, hentry⟩

/-- The loop ends when there is a round for every entry. -/
theorem Indexed.limitLoop (nMaxOrphans : UInt32) : ∀ (fuel : ℕ) (rand : ℕ → Uint256)
    (nEvicted : UInt32) {s : CTxOrphanCache}, s.Indexed →
    s.mapOrphanTransactions.entries.length ≤ fuel →
    ∃ r, CTxOrphanCache.limitLoop nMaxOrphans fuel rand nEvicted s = some r ∧ r.2.Indexed ∧
      r.2.mapOrphanTransactions.entries.length ≤ nMaxOrphans.toNat := by
  intro fuel
  induction fuel with
  | zero =>
    intro rand nEvicted s h hfuel
    have hle : s.mapOrphanTransactions.entries.length ≤ nMaxOrphans.toNat := by omega
    rw [CTxOrphanCache.limitLoop, if_pos hle]
    exact ⟨_, rfl, h, hle⟩
  | succ fuel ih =>
    intro rand nEvicted s h hfuel
    rw [CTxOrphanCache.limitLoop]
    by_cases hle : s.mapOrphanTransactions.entries.length ≤ nMaxOrphans.toNat
    · rw [if_pos hle]
      exact ⟨_, rfl, h, hle⟩
    · rw [if_neg hle]
      have hne : s.mapOrphanTransactions.entries ≠ [] := by
        intro hnil
        rw [hnil, List.length_nil] at hle
        exact hle (Nat.zero_le _)
      obtain ⟨hash, entry, hvictim, hentry⟩ := exists_victim hne (rand 0)
      have hlen := length_eraseOrphanTx hentry
      obtain ⟨r, hrest, hr⟩ := ih (fun n => rand (n + 1)) (nEvicted + 1) (h.eraseOrphanTx hash)
        (by omega)
      refine ⟨r, ?_, hr⟩
      rw [hvictim]
      exact hrest

theorem Indexed.limitOrphanTxSize {s : CTxOrphanCache} (h : s.Indexed) (nMaxOrphans : UInt32)
    (rand : ℕ → Uint256) : ∃ r, s.limitOrphanTxSize nMaxOrphans rand = some r ∧ r.2.Indexed ∧
      r.2.mapOrphanTransactions.entries.length ≤ nMaxOrphans.toNat :=
  h.limitLoop nMaxOrphans _ rand 0 le_rfl

/-! ## Looking up -/

/-- The entries for some hashes, one after the other. -/
theorem mapM_lookup (m : AList fun _ : Uint256 => COrphanTx) : ∀ set : List Uint256,
    (∀ hash ∈ set, ∃ entry, m.lookup hash = some entry ∧ entry.tx.hash = hash) →
    ∃ answer, set.mapM m.lookup = some answer ∧ answer.map (fun entry => entry.tx.hash) = set ∧
      ∀ entry ∈ answer, m.lookup entry.tx.hash = some entry := by
  intro set
  induction set with
  | nil =>
    intro _
    exact ⟨[], rfl, rfl, fun entry hentry => by cases hentry⟩
  | cons hash set ih =>
    intro hall
    obtain ⟨entry, hlookup, hhash⟩ := hall hash List.mem_cons_self
    obtain ⟨answer, hrest, hmap, hentries⟩ :=
      ih fun hash' hhash' => hall hash' (List.mem_cons_of_mem hash hhash')
    refine ⟨entry :: answer, ?_, ?_, ?_⟩
    · rw [List.mapM_cons, hlookup, hrest]
      rfl
    · rw [List.map_cons, hmap, hhash]
    · intro entry' hentry'
      rcases List.mem_cons.mp hentry' with rfl | hentry'
      · rw [hhash, hlookup]
      · exact hentries entry' hentry'

/-- **`fetchTransactionsByPrev`** finds each transaction that waits, and finds it once. -/
theorem Indexed.fetchTransactionsByPrev {s : CTxOrphanCache} (h : s.Indexed) (txid : Uint256) :
    ∃ answer, s.fetchTransactionsByPrev txid = some answer ∧
      (answer.map fun entry => entry.tx.hash).Nodup ∧
      ∀ entry, entry ∈ answer ↔ ∃ hash, s.mapOrphanTransactions.lookup hash = some entry ∧
        txid ∈ entry.tx.prevHashes := by
  rw [CTxOrphanCache.fetchTransactionsByPrev]
  have hindex := h.index txid
  cases hset : s.mapOrphanTransactionsByPrev.lookup txid with
  | none =>
    rw [hset, Option.getD_none] at hindex
    refine ⟨[], rfl, List.nodup_nil, fun entry => ⟨fun hmem => absurd hmem List.not_mem_nil, ?_⟩⟩
    rintro ⟨hash, hlookup, hprev⟩
    exact absurd ((hindex hash).mpr ⟨entry, hlookup, hprev⟩) List.not_mem_nil
  | some set =>
    rw [hset, Option.getD_some] at hindex
    obtain ⟨answer, hrun, hmap, hentries⟩ := mapM_lookup s.mapOrphanTransactions set (by
      intro hash hhash
      obtain ⟨entry, hlookup, -⟩ := (hindex hash).mp hhash
      exact ⟨entry, hlookup, h.keyed hash entry hlookup⟩)
    refine ⟨answer, hrun, ?_, fun entry => ⟨fun hmem => ?_, ?_⟩⟩
    · rw [hmap]
      exact h.nodup txid set hset
    · have hhash : entry.tx.hash ∈ set := by
        rw [← hmap]
        exact List.mem_map_of_mem hmem
      obtain ⟨entry', hlookup, hprev⟩ := (hindex _).mp hhash
      rw [hentries entry hmem] at hlookup
      obtain rfl := Option.some.inj hlookup
      exact ⟨_, hentries entry hmem, hprev⟩
    · rintro ⟨hash, hlookup, hprev⟩
      have hhash := (hindex hash).mpr ⟨entry, hlookup, hprev⟩
      rw [← hmap] at hhash
      obtain ⟨entry', hmem, hsame⟩ := List.mem_map.mp hhash
      have hlookup' := hentries entry' hmem
      rw [hsame, hlookup] at hlookup'
      obtain rfl := Option.some.inj hlookup'
      exact hmem

/-! ## Runs -/

/-- One call goes through and keeps the maps together. -/
theorem Indexed.step {s : CTxOrphanCache} (h : s.Indexed) (call : Call) :
    ∃ s', s.step call = some s' ∧ s'.Indexed := by
  cases call with
  | add tx peer onResultFlags originalEntryTime now =>
    exact ⟨_, rfl, h.addOrphanTx tx peer onResultFlags originalEntryTime now⟩
  | erase txIds => exact ⟨_, rfl, h.eraseOrphans txIds⟩
  | eraseByTime mempoolexpiry now later => exact h.eraseOrphansByTime mempoolexpiry now later
  | limit nMaxOrphans rand =>
    obtain ⟨r, hrun, h', -⟩ := h.limitOrphanTxSize nMaxOrphans rand
    exact ⟨r.2, by rw [CTxOrphanCache.step, hrun, Option.map_some], h'⟩
  | limitDefault rand =>
    obtain ⟨r, hrun, h', -⟩ := h.limitOrphanTxSize s.limit rand
    exact ⟨r.2, by rw [CTxOrphanCache.step, hrun, Option.map_some], h'⟩
  | setLimit limit => exact ⟨_, rfl, h.keyed, h.index, h.nonempty, h.nodup⟩
  | clear => exact ⟨_, rfl, indexed_empty _ _⟩

theorem Indexed.run {s : CTxOrphanCache} (h : s.Indexed) (calls : List Call) :
    ∃ s', s.run calls = some s' ∧ s'.Indexed := by
  induction calls generalizing s with
  | nil => exact ⟨s, rfl, h⟩
  | cons call calls ih =>
    obtain ⟨s₁, hstep, h₁⟩ := h.step call
    obtain ⟨s', hrest, h'⟩ := ih h₁
    refine ⟨s', ?_, h'⟩
    rw [CTxOrphanCache.run, List.foldlM_cons, hstep]
    exact hrest

/-- **The orphan cache.**  No call of a run fails.  Behind the key of a transaction are the stored
transactions that spend from it, at least one and each once, and the other transactions have no key;
so a lookup never throws and finds them all.  Evicting at random comes down to the limit. -/
theorem run_exact (limit : UInt32) (calls : List Call) :
    ∃ s, (init limit).run calls = some s ∧
      (∀ prev set, s.mapOrphanTransactionsByPrev.lookup prev = some set →
        set ≠ [] ∧ set.Nodup ∧ ∀ hash, hash ∈ set ↔ ∃ entry,
          s.mapOrphanTransactions.lookup hash = some entry ∧ prev ∈ entry.tx.prevHashes) ∧
      (∀ prev, s.mapOrphanTransactionsByPrev.lookup prev = none → ∀ hash entry,
        s.mapOrphanTransactions.lookup hash = some entry → prev ∉ entry.tx.prevHashes) ∧
      (∀ txid, ∃ answer, s.fetchTransactionsByPrev txid = some answer ∧
        (answer.map fun entry => entry.tx.hash).Nodup ∧
        ∀ entry, entry ∈ answer ↔ ∃ hash, s.mapOrphanTransactions.lookup hash = some entry ∧
          txid ∈ entry.tx.prevHashes) ∧
      ∀ nMaxOrphans rand, ∃ nEvicted s', s.limitOrphanTxSize nMaxOrphans rand = some (nEvicted, s') ∧
        s'.mapOrphanTransactions.entries.length ≤ nMaxOrphans.toNat := by
  obtain ⟨s, hrun, h⟩ := (indexed_empty limit none).run calls
  refine ⟨s, hrun, ?_, ?_, h.fetchTransactionsByPrev, ?_⟩
  · intro prev set hset
    refine ⟨h.nonempty prev set hset, h.nodup prev set hset, fun hash => ?_⟩
    rw [← h.index, hset, Option.getD_some]
  · intro prev hnone hash entry hlookup hprev
    have hmem := (h.index prev hash).mpr ⟨entry, hlookup, hprev⟩
    rw [hnone, Option.getD_none] at hmem
    exact absurd hmem List.not_mem_nil
  · intro nMaxOrphans rand
    obtain ⟨r, hlimit, -, hle⟩ := h.limitOrphanTxSize nMaxOrphans rand
    exact ⟨r.1, r.2, hlimit, hle⟩

end CTxOrphanCache
