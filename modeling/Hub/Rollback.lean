/-
# Rolling back blocks

`ValidationEnginePrivate::prepareChain` (`libs/server/validation/BlockValidation.cpp`) disconnects
the blocks that are not on the best chain of headers, from the tip down, in a cache over the coins
of the memory pool, and flushes it.

`rollBack_spec` is about the values: they are those of the coins before the first of the blocks
came.  `lookup_flush_rollBack` is about what the pool's cache then has for coins that are gone.
There is no entry only if there was a `FRESH` one before; otherwise an entry without outputs stays.
-/
import Hub.MemPoolBacked

/-! ## The code -/

/-- A block of the active chain, with the undo data that is stored for it and the hash of the block
below it. -/
structure StoredBlock where
  vtx : List CTransaction
  nHeight : Int32
  undo : CBlockUndo
  hashPrev : Uint256

namespace CCoinsViewCache

variable (usage : CCoins → ℕ)

/-- The first loop of `prepareChain`, with the blocks from the tip down; `none` is fatal. -/
def rollBack : List StoredBlock → CCoinsViewCache → Option CCoinsViewCache
  | [], view => some view
  | b :: bs, view =>
      match view.undoBlock usage b.vtx b.nHeight b.undo with
      | some (true, view) => rollBack bs (view.setBestBlock b.hashPrev)
      | _ => none

end CCoinsViewCache

/-! ## Values -/

/-- What validation makes sure of. -/
structure StoredBlock.Valid (b : StoredBlock) : Prop where
  outputs : ∀ tx ∈ b.vtx, ∀ o ∈ tx.vout, o.isNull = false
  height : b.nHeight ≠ 0
  coinbase : ∃ tx txs, b.vtx = tx :: txs ∧ tx.isCoinBase = true ∧
    ∀ tx ∈ txs, tx.isCoinBase = false

/-- The blocks `bs`, from the tip down, lead from the coins `U'` to the coins `U`, with the undo
data that they have. -/
inductive Connected (usage : CCoins → ℕ) (U' : Uint256 → Option CCoins) :
    List StoredBlock → (Uint256 → Option CCoins) → Prop
  | nil : Connected usage U' [] U'
  | cons {b : StoredBlock} {bs : List StoredBlock} {v v' : CCoinsViewCache}
      {answer : List (List CCoins)} (below : Connected usage U' bs v.view.value)
      (valid : b.Valid) (wf : v.view.Wf)
      (run : v.processBlock usage b.vtx b.nHeight .checkDuplicateTxId = (.ok (answer, b.undo), v')) :
      Connected usage U' (b :: bs) v'.view.value

namespace CCoins

/-- What is unspent after another output was spent was unspent before. -/
theorem isAvailable_of_spent {c : CCoins} {n m : ℕ} (h : (c.spent n).isAvailable m = true) :
    c.isAvailable m = true := by
  obtain ⟨o, ho, hnull⟩ := isAvailable_iff.mp h
  obtain ⟨hlt, rfl⟩ := List.getElem?_eq_some_iff.mp ho
  have hprefix : (c.spent n).vout <+: c.vout.set n CTxOut.null := List.rdropWhile_prefix _ _
  have hset := List.prefix_iff_getElem?.mp hprefix m hlt
  have hne : m ≠ n := by
    rintro rfl
    have hm : m < (c.vout.set m CTxOut.null).length := (List.getElem?_eq_some_iff.mp hset).1
    rw [List.getElem?_set_self (by simpa using hm)] at hset
    rw [← Option.some.inj hset] at hnull
    cases hnull
  rw [List.getElem?_set_ne hne.symm] at hset
  exact isAvailable_iff.mpr ⟨_, hset, hnull⟩

end CCoins

/-- Spending makes nothing unspent. -/
theorem Unspent.of_spends {U U' : Uint256 → Option CCoins} {p o : COutPoint} {u : CTxInUndo}
    (h : CCoinsViewCache.Spends U p u U') (ho : Unspent U' o) : Unspent U o := by
  obtain ⟨c, out, hc, -, -, -, rfl⟩ := h
  obtain ⟨d, hd, hav⟩ := ho
  by_cases hhash : o.hash = p.hash
  · rw [hhash, Function.update_self] at hd
    obtain rfl : c.spent p.n = d := (Option.filter_eq_some_iff.mp hd).1 |> Option.some.inj
    exact ⟨c, by rw [hhash, hc], CCoins.isAvailable_of_spent hav⟩
  · rw [Function.update_of_ne hhash] at hd
    exact ⟨d, hd, hav⟩

/-- A new transaction makes its own outputs unspent. -/
theorem Unspent.of_update {U : Uint256 → Option CCoins} {tx : CTransaction} {nHeight : Int32}
    {o : COutPoint}
    (ho : Unspent (Function.update U tx.hash (CCoins.norm (some (CCoins.fromTx tx nHeight)))) o) :
    Unspent U o ∨ (tx.hash = o.hash ∧ o.n < tx.vout.length) := by
  obtain ⟨d, hd, hav⟩ := ho
  by_cases hhash : o.hash = tx.hash
  · right
    rw [hhash, Function.update_self] at hd
    obtain rfl : CCoins.fromTx tx nHeight = d :=
      (Option.filter_eq_some_iff.mp hd).1 |> Option.some.inj
    obtain ⟨out, hout, -⟩ := CCoins.exists_of_isAvailable_fromTx hav
    exact ⟨hhash.symm, (List.getElem?_eq_some_iff.mp hout).1⟩
  · rw [Function.update_of_ne hhash] at hd
    exact .inl ⟨d, hd, hav⟩

namespace CCoinsViewCache

variable {usage : CCoins → ℕ} {v v' : CCoinsViewCache} {nHeight : Int32} {o : COutPoint}

theorem unspent_of_spendInputs : ∀ {ps : List COutPoint} {v v' : CCoinsViewCache}
    {r : List CCoins × CTxUndo}, v.view.Wf → v.spendInputs usage ps = (.ok r, v') →
    v'.view.Wf ∧ (Unspent v'.view.value o → Unspent v.view.value o) ∧
      ∀ u ∈ r.2, u.txout.isNull = false := by
  intro ps
  induction ps with
  | nil =>
    intro v v' r hwf hrun
    rw [spendInputs] at hrun
    obtain ⟨hr, rfl⟩ := Prod.mk.inj hrun
    obtain rfl := Except.ok.inj hr
    exact ⟨hwf, id, by simp⟩
  | cons p ps ih =>
    intro v v' r hwf hrun
    obtain ⟨coin, u, v₁, inputs, us, hone, hrest, rfl⟩ := of_spendInputs_cons hrun
    obtain ⟨hs, hwf₁⟩ := spendInput_spec hwf hone
    obtain ⟨hwf', hback, hus⟩ := ih hwf₁ hrest
    refine ⟨hwf', fun h => (hback h).of_spends hs, fun w hw => ?_⟩
    rcases List.mem_cons.mp hw with rfl | hw
    · obtain ⟨c, out, -, -, hnull, rfl, -⟩ := hs
      rw [undoFor]
      split
      · exact hnull
      · exact hnull
    · exact hus w hw

theorem unspent_of_processTransactions : ∀ {txs : List CTransaction} {v v' : CCoinsViewCache}
    {r : List (List CCoins) × CBlockUndo}, v.view.Wf →
    v.processTransactions usage nHeight .checkDuplicateTxId txs = (.ok r, v') →
    (Unspent v'.view.value o → Unspent v.view.value o ∨
      ∃ tx ∈ txs, tx.hash = o.hash ∧ o.n < tx.vout.length) ∧
    ∀ us ∈ r.2, ∀ u ∈ us, u.txout.isNull = false := by
  intro txs
  induction txs with
  | nil =>
    intro v v' r hwf hrun
    rw [processTransactions] at hrun
    obtain ⟨hr, rfl⟩ := Prod.mk.inj hrun
    obtain rfl := Except.ok.inj hr
    exact ⟨.inl, by simp⟩
  | cons tx txs ih =>
    intro v v' r hwf hrun
    obtain ⟨inputs, us, v₁, v₂, answer, undo, hspend, hcreate, hrest, rfl⟩ :=
      of_processTransactions_cons hrun
    obtain ⟨hwf₁, hback, hus⟩ := unspent_of_spendInputs hwf hspend
    obtain ⟨-, hwf₂, hval₂⟩ := createCoins_spec hwf₁ hcreate
    obtain ⟨hlater, hundo⟩ := ih hwf₂ hrest
    refine ⟨fun h => ?_, fun w hw => ?_⟩
    · rcases hlater h with h | ⟨tx', htx', h⟩
      · rw [hval₂] at h
        rcases h.of_update with h | h
        · exact .inl (hback h)
        · exact .inr ⟨tx, List.mem_cons_self, h⟩
      · exact .inr ⟨tx', List.mem_cons_of_mem _ htx', h⟩
    · rcases List.mem_cons.mp hw with rfl | hw
      · exact hus
      · exact hundo w hw

/-- What is unspent after a block was unspent before, or is an output of the block; and the undo
data has outputs that are there. -/
theorem unspent_of_processBlock {block : List CTransaction}
    {r : List (List CCoins) × CBlockUndo} (hwf : v.view.Wf)
    (hrun : v.processBlock usage block nHeight .checkDuplicateTxId = (.ok r, v')) :
    (Unspent v'.view.value o → Unspent v.view.value o ∨
      ∃ tx ∈ block, tx.hash = o.hash ∧ o.n < tx.vout.length) ∧
    ∀ us ∈ r.2, ∀ u ∈ us, u.txout.isNull = false := by
  cases block with
  | nil =>
    rw [processBlock] at hrun
    obtain ⟨hr, rfl⟩ := Prod.mk.inj hrun
    obtain rfl := Except.ok.inj hr
    exact ⟨.inl, by simp⟩
  | cons coinbase txs =>
    obtain ⟨v₁, answer, hcreate, htxs, -⟩ := of_processBlock_cons hrun
    obtain ⟨-, hwf₁, hval₁⟩ := createCoins_spec hwf hcreate
    obtain ⟨hlater, hundo⟩ := unspent_of_processTransactions hwf₁ htxs
    refine ⟨fun h => ?_, hundo⟩
    rcases hlater h with h | ⟨tx, htx, h⟩
    · rw [hval₁] at h
      rcases h.of_update with h | h
      · exact .inl h
      · exact .inr ⟨coinbase, List.mem_cons_self, h⟩
    · exact .inr ⟨tx, List.mem_cons_of_mem _ htx, h⟩

end CCoinsViewCache

section

variable {usage : CCoins → ℕ} {U U' : Uint256 → Option CCoins} {bs : List StoredBlock}

/-- What is unspent at the tip is unspent below, or is an output of one of the blocks. -/
theorem Connected.unspent (h : Connected usage U' bs U) {o : COutPoint} (ho : Unspent U o) :
    Unspent U' o ∨ ∃ b ∈ bs, ∃ tx ∈ b.vtx, tx.hash = o.hash ∧ o.n < tx.vout.length := by
  induction h with
  | nil => exact .inl ho
  | @cons b bs v v' answer below valid wf run ih =>
    rcases (CCoinsViewCache.unspent_of_processBlock wf run).1 ho with h | ⟨tx, htx, h⟩
    · exact (ih h).imp_right fun ⟨b', hb', hrest⟩ => ⟨b', List.mem_cons_of_mem _ hb', hrest⟩
    · exact .inr ⟨b, List.mem_cons_self, tx, htx, h⟩

theorem Connected.valid (h : Connected usage U' bs U) : ∀ b ∈ bs, b.Valid := by
  induction h with
  | nil => simp
  | @cons b bs v v' answer below valid wf run ih =>
    intro b' hb'
    rcases List.mem_cons.mp hb' with rfl | hb'
    · exact valid
    · exact ih b' hb'

theorem StoredBlock.Valid.ne_nil {b : StoredBlock} (h : b.Valid) : b.vtx ≠ [] := by
  obtain ⟨tx, txs, hvtx, -⟩ := h.coinbase
  rw [hvtx]
  exact List.cons_ne_nil tx txs

theorem Connected.utxoOk (h : Connected usage U' bs U) (hU' : CCoinsViewCache.UtxoOk U') :
    CCoinsViewCache.UtxoOk U := by
  induction h with
  | nil => exact hU'
  | cons below valid wf run ih =>
    exact (CCoinsViewCache.undoBlock_processBlock usage wf ih valid.ne_nil valid.outputs
      valid.height run).2.1

/-- **The values after rolling back.** -/
theorem Connected.rollBack_spec (h : Connected usage U' bs U)
    (hU' : CCoinsViewCache.UtxoOk U') : ∀ {w : CCoinsViewCache}, w.view.Wf → w.view.value = U →
    ∃ w', CCoinsViewCache.rollBack usage bs w = some w' ∧ w'.view.Wf ∧ w'.view.value = U' := by
  induction h with
  | nil =>
    intro w hwf hval
    exact ⟨w, rfl, hwf, hval⟩
  | @cons b bs v v' answer below valid wf run ih =>
    intro w hwf hval
    obtain ⟨-, -, hundo⟩ := CCoinsViewCache.undoBlock_processBlock usage wf (below.utxoOk hU')
      valid.ne_nil valid.outputs valid.height run
    obtain ⟨w₁, hw₁, hwf₁, hval₁⟩ := hundo w hwf hval
    have hset : (w₁.setBestBlock b.hashPrev).view.Wf := hwf₁
    obtain ⟨w', hw', hwf', hval'⟩ := ih hset hval₁
    refine ⟨w', ?_, hwf', hval'⟩
    rw [CCoinsViewCache.rollBack, hw₁]
    exact hw'

end

/-! ## What stays in the pool's cache -/

namespace CCoinsView

/-- The view `v'` is the view `v` after some reads, which fill caches. -/
def Fills : CCoinsView → CCoinsView → Prop
  | .db d, .db d' => d' = d
  | .cache data base, .cache data' base' => base'.lookup = base.lookup ∧
      ∀ t, data'.cacheCoins.lookup t = data.cacheCoins.lookup t ∨
        (data.cacheCoins.lookup t = none ∧ ∃ c, base.lookup t = some c ∧
          data'.cacheCoins.lookup t = some ⟨c, false, c.isPruned⟩)
  | _, _ => False

theorem Fills.refl (v : CCoinsView) : Fills v v := by
  cases v with
  | db d => rfl
  | cache data base => exact ⟨rfl, fun t => .inl rfl⟩

theorem Fills.trans {v v' v'' : CCoinsView} (h : Fills v v') (h' : Fills v' v'') :
    Fills v v'' := by
  match v, v', v'', h, h' with
  | .db d, .db d', .db d'', h, h' => exact Eq.trans h' h
  | .cache data base, .cache data' base', .cache data'' base'', ⟨hbase, hdata⟩,
      ⟨hbase', hdata'⟩ =>
    refine ⟨hbase'.trans hbase, fun t => ?_⟩
    rcases hdata t with ht | ⟨hnone, c, hc, ht⟩
    · rcases hdata' t with ht' | ⟨hnone', c, hc, ht'⟩
      · exact .inl (ht'.trans ht)
      · exact .inr ⟨ht.symm.trans hnone', c, by rw [← hbase, hc], ht'⟩
    · rcases hdata' t with ht' | ⟨hnone', -⟩
      · exact .inr ⟨hnone, c, hc, ht'.trans ht⟩
      · rw [ht] at hnone'
        cases hnone'

theorem Fills.lookup {v v' : CCoinsView} (h : Fills v v') : v'.lookup = v.lookup := by
  match v, v', h with
  | .db d, .db d', h =>
    obtain rfl : d' = d := h
    rfl
  | .cache data base, .cache data' base', ⟨hbase, hdata⟩ =>
    funext t
    rw [CCoinsView.lookup, CCoinsView.lookup, hbase]
    rcases hdata t with ht | ⟨hnone, c, hc, ht⟩
    · rw [ht]
    · rw [ht, hnone]
      exact hc.symm

theorem fills_getCoins (usage : CCoins → ℕ) (v : CCoinsView) (txid : Uint256) :
    Fills v (v.getCoins usage txid).2 := by
  cases v with
  | db d => rfl
  | cache data base =>
    have hbase := funext fun t => lookup_getCoins usage base txid t
    have hfst := getCoins_fst usage base txid
    rw [getCoins]
    cases he : data.cacheCoins.lookup txid with
    | some e => exact Fills.refl _
    | none =>
      simp only
      cases hget : base.getCoins usage txid with
      | mk r base' =>
        rw [hget] at hbase hfst
        cases r with
        | none => exact ⟨hbase, fun t => .inl rfl⟩
        | some c =>
          refine ⟨hbase, fun t => ?_⟩
          by_cases ht : t = txid
          · subst ht
            exact .inr ⟨he, c, hfst.symm, AList.lookup_insert _⟩
          · exact .inl (AList.lookup_insert_ne ht)

/-- What is left of the coins of a transaction in the view when a cache above it writes that they
are gone. -/
def leftover (v : CCoinsView) (txid : Uint256) : Option CCoins :=
  match v with
  | .db _ => none
  | .cache data base =>
      if (data.cacheCoins.lookup txid).any CCoinsCacheEntry.fresh then base.lookup txid
      else some CCoins.empty

end CCoinsView

namespace CCoinsViewCache

open CCoinsView

variable {usage : CCoins → ℕ} {α : Type} {w w' : CCoinsViewCache} {coins : CCoinsView}

/-- An edit that leaves coins without outputs only as `Clear` does. -/
def Tame (edit : CCoins → α × CCoins) : Prop :=
  ∀ c, (edit c).2.isPruned = true → (edit c).2.cleanup = CCoins.empty

/-- What holds of a cache over `coins` in which blocks are rolled back: the view below is only read,
and coins without outputs are empty. -/
structure Undone (coins : CCoinsView) (w : CCoinsViewCache) : Prop where
  filled : Fills coins w.base
  emptied : ∀ t e, w.data.cacheCoins.lookup t = some e → e.coins.isPruned = true →
    e.coins = CCoins.empty

theorem Undone.create (coins : CCoinsView) : Undone coins (create coins) where
  filled := Fills.refl coins
  emptied := fun t e he => by cases he

theorem Undone.modifyCoins (h : Undone coins w) (txid : Uint256) {edit : CCoins → α × CCoins}
    (hedit : Tame edit) : Undone coins (w.modifyCoins usage txid edit).2 := by
  have hopen : Fills w.base (w.openModifier usage txid).2.2 := by
    have hget := fills_getCoins usage w.base txid
    rw [openModifier]
    cases w.data.cacheCoins.lookup txid with
    | some e => exact Fills.refl _
    | none =>
      cases hr : w.base.getCoins usage txid with
      | mk r base =>
        rw [hr] at hget
        cases r with
        | none => exact hget
        | some c => exact hget
  refine ⟨h.filled.trans hopen, fun t e he hp => ?_⟩
  rw [CCoinsViewCache.modifyCoins] at he
  simp only [closeModifier] at he
  by_cases ht : t = txid
  · subst ht
    split at he
    · rw [AList.lookup_erase] at he
      cases he
    · rw [AList.lookup_insert] at he
      obtain rfl := Option.some.inj he
      rw [CCoins.isPruned_cleanup] at hp
      exact hedit _ hp
  · split at he
    · rw [AList.lookup_erase_ne ht] at he
      exact h.emptied t e he hp
    · rw [AList.lookup_insert_ne ht] at he
      exact h.emptied t e he hp

theorem tame_undoSpend {undo : CTxInUndo} (hundo : undo.txout.isNull = false) (n : ℕ) :
    Tame (undoSpend undo n) := by
  intro c hp
  have hall := List.all_eq_true.mp hp undo.txout
  rw [undoSpend] at hall
  simp only at hall
  rw [hall] at hundo
  · cases hundo
  · apply List.mem_of_getElem? (i := n)
    apply List.getElem?_set_self
    rw [List.length_append, List.length_replicate]
    omega

theorem Undone.undoInputs (h : Undone coins w) : ∀ {l : List (COutPoint × CTxInUndo)},
    (∀ x ∈ l, x.2.txout.isNull = false) → Undone coins (w.undoInputs usage l).2 := by
  intro l
  induction l with
  | nil =>
    intro _
    exact h
  | cons x l ih =>
    intro hl
    exact (ih fun y hy => hl y (List.mem_cons_of_mem _ hy)).modifyCoins x.1.hash
      (tame_undoSpend (hl x List.mem_cons_self) x.1.n)

theorem Undone.removeOutputs (h : Undone coins w) (tx : CTransaction) (nHeight : Int32) :
    Undone coins (w.removeOutputs usage tx nHeight).2 :=
  h.modifyCoins tx.hash fun _ _ => rfl

theorem Undone.undoTransactions {nHeight : Int32} : ∀ {l : List (CTransaction × CTxUndo)}
    {w w' : CCoinsViewCache} {clean : Bool}, Undone coins w →
    (∀ x ∈ l, ∀ u ∈ x.2, u.txout.isNull = false) →
    w.undoTransactions usage nHeight l = some (clean, w') → Undone coins w' := by
  intro l
  induction l with
  | nil =>
    intro w w' clean h _ hrun
    obtain ⟨-, rfl⟩ := Prod.mk.inj (Option.some.inj hrun)
    exact h
  | cons x l ih =>
    intro w w' clean h hl hrun
    rw [CCoinsViewCache.undoTransactions] at hrun
    simp only [Option.bind_eq_bind, Option.bind_eq_some_iff] at hrun
    obtain ⟨⟨cleanRest, w₁⟩, hrest, ⟨cleanOne, w₂⟩, hone, hrun⟩ := hrun
    obtain ⟨-, rfl⟩ := Prod.mk.inj (Option.some.inj hrun)
    have h₁ := ih h (fun y hy => hl y (List.mem_cons_of_mem _ hy)) hrest
    rw [undoTransaction] at hone
    split at hone
    · cases hone
    · obtain ⟨-, rfl⟩ := Prod.mk.inj (Option.some.inj hone)
      refine (h₁.removeOutputs x.1 nHeight).undoInputs fun y hy => ?_
      exact hl x List.mem_cons_self y.2 (List.of_mem_zip hy).2

theorem Undone.undoBlock {block : List CTransaction} {nHeight : Int32} {undo : CBlockUndo}
    {clean : Bool} (h : Undone coins w) (hundo : ∀ us ∈ undo, ∀ u ∈ us, u.txout.isNull = false)
    (hrun : w.undoBlock usage block nHeight undo = some (clean, w')) : Undone coins w' := by
  cases block with
  | nil => cases hrun
  | cons coinbase txs =>
    rw [CCoinsViewCache.undoBlock] at hrun
    simp only [Option.bind_eq_bind, Option.bind_eq_some_iff] at hrun
    obtain ⟨-, -, ⟨cleanTxs, w₁⟩, htxs, hrun⟩ := hrun
    obtain ⟨-, rfl⟩ := Prod.mk.inj (Option.some.inj hrun)
    exact (h.undoTransactions (fun x hx => hundo x.2 (List.of_mem_zip hx).2) htxs).removeOutputs
      coinbase nHeight

theorem Undone.rollBack {bs : List StoredBlock} {U U' : Uint256 → Option CCoins}
    (hbs : Connected usage U' bs U) : ∀ {w w' : CCoinsViewCache}, Undone coins w →
    rollBack usage bs w = some w' → Undone coins w' := by
  induction hbs with
  | nil =>
    intro w w' h hrun
    obtain rfl := Option.some.inj hrun
    exact h
  | @cons b bs v v' answer below valid wf run ih =>
    intro w w' h hrun
    rw [CCoinsViewCache.rollBack] at hrun
    split at hrun
    · next w₁ hblock =>
      have h₁ := h.undoBlock (unspent_of_processBlock (o := ⟨0, 0⟩) wf run).2 hblock
      have h₂ : Undone coins (w₁.setBestBlock b.hashPrev) := ⟨h₁.filled, h₁.emptied⟩
      exact ih h₂ hrun
    · cases hrun

/-- **What the pool's view has after the flush**, where it had coins before. -/
theorem Undone.lookup_flush (h : Undone coins w) (hw : w.view.Wf)
    (hvalue : w.base.value = coins.value) {t : Uint256} (hthere : coins.value t ≠ none) :
    (w.flush usage).base.lookup t = (w.view.value t).or (coins.leftover t) := by
  obtain ⟨-, -, hbase, -⟩ := flush_spec usage hw
  have hbase' := congrFun hbase t
  cases hval : w.view.value t with
  | some c =>
    rw [hval, CCoinsView.value] at hbase'
    rw [Option.some_or]
    exact (Option.filter_eq_some_iff.mp hbase').1
  | none =>
    rw [Option.none_or]
    -- there is an entry, which was written
    have hentry : ∃ e, w.data.cacheCoins.lookup t = some e := by
      cases he : w.data.cacheCoins.lookup t with
      | some e => exact ⟨e, rfl⟩
      | none =>
        have htop : w.view.value t = w.base.value t := value_cache_of_none he
        rw [hval, hvalue] at htop
        exact absurd htop.symm hthere
    obtain ⟨e, he⟩ := hentry
    have hok := hw.2 t e he
    rw [hvalue] at hok
    have hnorm : CCoins.norm (some e.coins) = none := by
      rw [← value_cache_of_some he]
      exact hval
    have hp := CCoins.norm_some_eq_none_iff.mp hnorm
    have hempty := h.emptied t e he hp
    have hdirty : e.dirty = true := by
      by_contra hd
      exact hthere ((hok.unchanged (by simpa using hd)).symm.trans hnorm)
    have hfresh : e.fresh = false := by
      by_contra hf
      exact hthere (hok.absent (by simpa using hf))
    rw [flush]
    have hfilled := h.filled
    clear hbase hbase' hvalue hok hw h
    revert hfilled
    cases hw : w.base with
    | db d' =>
      intro _
      cases coins with
      | db d =>
        simp only [batchWrite, lookup, leftover]
        rw [lookup_writeToDB, he, Option.elim_some, mergeRecord, if_pos hdirty, if_pos hp]
      | cache data base => exact absurd ‹_› id
    | cache data' base' =>
      intro hfilled
      cases coins with
      | db d => exact absurd hfilled id
      | cache data base =>
        obtain ⟨hsame, hdata⟩ := hfilled
        simp only [batchWrite, lookup, leftover]
        rw [lookup_writeToCache, he, Option.elim_some, hsame]
        rcases hdata t with ht | ⟨hnone, c, hc, ht⟩
        · rw [ht]
          cases hl : data.cacheCoins.lookup t with
          | none => simp [mergeEntry, hdirty, hfresh, hempty]
          | some us =>
            cases hus : us.fresh with
            | true => simp [mergeEntry, hdirty, hus, hp]
            | false => simp [mergeEntry, hdirty, hus, hempty]
        · -- it was filled in, and is not fresh since there were coins
          have hcp : c.isPruned = false := by
            by_contra hcp
            apply hthere
            rw [CCoinsView.value, CCoinsView.lookup, hnone]
            simp only
            rw [hc]
            exact CCoins.norm_some_of_pruned (by simpa using hcp)
          rw [ht, hnone]
          simp [mergeEntry, hdirty, hcp, hempty]

end CCoinsViewCache
