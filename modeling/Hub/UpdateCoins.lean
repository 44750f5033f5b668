/-
# The other way to apply a block

`UpdateCoins` (`libs/server/main.cpp`) applies one transaction to a `CCoinsViewCache`.  Its new coins
come from `ModifyNewCoins` (`libs/server/coins.cpp`), which makes a `FRESH` entry without a look at the
view below: if that has unspent outputs of the same transaction, and the new ones are all spent before
the next `Flush`, the entry is dropped and the old outputs come back.

`Tracks` compares a view that goes through `UpdateCoins` with the values that
`CCoinsViewCache::processBlock` makes; `updateBlock_tracks` says where the two end up different, and
`updateBlock_agrees_iff` when they do not.
-/
import Hub.BlockUndo

/-! ## The code -/

namespace CCoinsViewCache

variable (usage : CCoins → ℕ)

/-- `ModifyNewCoins`, an edit of the coins, and the end of the modifier. -/
def modifyNewCoins (v : CCoinsViewCache) (txid : Uint256) (edit : CCoins → CCoins) :
    CCoinsViewCache :=
  ⟨closeModifier usage v.data txid ⟨edit CCoins.empty, true, true⟩ 0, v.base⟩

/-- The body of the loop over the inputs in `UpdateCoins`; without undo data the assertion fails. -/
def updateInput (v : CCoinsViewCache) (prevout : COutPoint) : Option CTxInUndo × CCoinsViewCache :=
  v.modifyCoins usage prevout.hash fun coins =>
    match coins.vout[prevout.n]? with
    | none => (none, coins)
    | some txout =>
        if txout.isNull then (none, coins)
        else
          -- what `Spend` returns is not looked at
          let coins := (coins.spend prevout.n).getD coins
          (some (undoFor txout coins), coins)

/-- The loop over the inputs in `UpdateCoins`. -/
def updateInputs (v : CCoinsViewCache) : List COutPoint → Option (CTxUndo × CCoinsViewCache)
  | [] => some ([], v)
  | prevout :: prevouts =>
      match v.updateInput usage prevout with
      | (none, _) => none
      | (some undo, v) => do
          let (undos, v) ← v.updateInputs prevouts
          some (undo :: undos, v)

/-- `UpdateCoins`; `none` is an assertion that fails. -/
def updateCoins (v : CCoinsViewCache) (tx : CTransaction) (nHeight : Int32) :
    Option (CTxUndo × CCoinsViewCache) :=
  if tx.isCoinBase then
    some ([], (v.modifyCoins usage tx.hash fun _ => ((), CCoins.fromTx tx nHeight)).2)
  else do
    let (txundo, v) ← v.updateInputs usage tx.prevouts
    some (txundo, v.modifyNewCoins usage tx.hash fun _ => CCoins.fromTx tx nHeight)

/-- `UpdateCoins` for the transactions of a block in order. -/
def updateBlock (v : CCoinsViewCache) (nHeight : Int32) :
    List CTransaction → Option (CBlockUndo × CCoinsViewCache)
  | [] => some ([], v)
  | tx :: txs => do
      let (txundo, v) ← v.updateCoins usage tx nHeight
      let (undo, v) ← v.updateBlock nHeight txs
      some (txundo :: undo, v)

end CCoinsViewCache

/-- What `checkBlock` asks: the first transaction is a coinbase, and no other one is. -/
def CoinbaseFirst (block : List CTransaction) : Prop :=
  (block.head?.map CTransaction.isCoinBase).getD false = true ∧
    block.tail.any CTransaction.isCoinBase = false

instance (block : List CTransaction) : Decidable (CoinbaseFirst block) := by
  unfold CoinbaseFirst
  infer_instance

/-! ## Entries -/

namespace CCoinsViewCache

open CCoinsView

/-- What a modifier leaves at its key. -/
def settled (e : CCoinsCacheEntry) : Option CCoinsCacheEntry :=
  if e.fresh && e.coins.cleanup.isPruned then none else some { e with coins := e.coins.cleanup }

theorem lookup_closeModifier (usage : CCoins → ℕ) (data : CCoinsCacheData) (txid : Uint256)
    (e : CCoinsCacheEntry) (old : ℕ) (t : Uint256) :
    (closeModifier usage data txid e old).cacheCoins.lookup t
      = if t = txid then settled e else data.cacheCoins.lookup t := by
  rw [closeModifier, settled]
  by_cases hdrop : (e.fresh && e.coins.cleanup.isPruned) = true
  · rw [if_pos hdrop, if_pos hdrop]
    by_cases ht : t = txid
    · subst ht
      rw [if_pos rfl]
      exact AList.lookup_erase t _
    · rw [if_neg ht]
      exact AList.lookup_erase_ne ht
  · rw [if_neg hdrop, if_neg hdrop]
    by_cases ht : t = txid
    · subst ht
      rw [if_pos rfl]
      exact AList.lookup_insert _
    · rw [if_neg ht]
      exact AList.lookup_insert_ne ht

/-- An entry over a view that holds `below`, for a transaction whose value is `x`.  One that
`ModifyNewCoins` made is `FRESH` whatever there is below, and gone if nothing is unspent. -/
def KeyOk (below : Option CCoins) (created : Prop) (x : Option CCoins)
    (o : Option CCoinsCacheEntry) : Prop :=
  (created → match o with
    | none => x = none
    | some e => e.fresh = true ∧ e.dirty = true ∧ e.coins.Clean ∧ x = some e.coins ∧
        ¬ e.coins.isPruned = true) ∧
  (¬ created → (∀ e, o = some e → EntryOk below e) ∧ overlay below o = x)

variable {below x : Option CCoins} {created : Prop}

/-- After an edit of what was handed out. -/
theorem keyOk_settled {e : CCoinsCacheEntry} (hdirty : e.dirty = true)
    (hcreated : created → e.fresh = true) (hfresh : ¬ created → e.fresh = true → below = none) :
    KeyOk below created (CCoins.norm (some e.coins.cleanup)) (settled e) := by
  rw [settled]
  by_cases hp : e.coins.cleanup.isPruned = true
  · by_cases hf : e.fresh = true
    · rw [if_pos (by rw [hf, hp]; rfl), CCoins.norm_some_of_pruned hp]
      refine ⟨fun _ => rfl, fun hc => ⟨fun e' he' => ?_, hfresh hc hf⟩⟩
      cases he'
    · rw [if_neg (by rw [Bool.eq_false_iff.mpr hf]; exact Bool.false_ne_true)]
      refine ⟨fun hc => absurd (hcreated hc) hf, fun hc => ⟨fun e' he' => ?_, rfl⟩⟩
      obtain rfl := Option.some.inj he'
      refine ⟨CCoins.clean_cleanup _, fun hd => ?_, hfresh hc⟩
      rw [hdirty] at hd
      cases hd
  · rw [if_neg (by rw [Bool.and_eq_true]; exact fun h => hp h.2)]
    refine ⟨fun hc => ⟨hcreated hc, hdirty, CCoins.clean_cleanup _,
      CCoins.norm_some_of_not_pruned hp, hp⟩, fun hc => ⟨fun e' he' => ?_, rfl⟩⟩
    obtain rfl := Option.some.inj he'
    refine ⟨CCoins.clean_cleanup _, fun hd => ?_, hfresh hc⟩
    rw [hdirty] at hd
    cases hd

/-! ## The two views -/

/-- A view over one that holds `below`, in the place of one with the values `S`; `created` are the
transactions whose coins were made by `ModifyNewCoins`. -/
structure Tracks (below : Uint256 → Option CCoins) (created : List Uint256)
    (S : Uint256 → Option CCoins) (w : CCoinsViewCache) : Prop where
  wf : w.base.Wf
  value : w.base.value = below
  key : ∀ t, KeyOk (below t) (t ∈ created) (S t) (w.data.cacheCoins.lookup t)

variable {usage : CCoins → ℕ} {below S S' : Uint256 → Option CCoins} {created : List Uint256}
  {v v' w : CCoinsViewCache} {txid : Uint256}

theorem tracks_of_wf (h : v.view.Wf) : Tracks v.base.value [] v.view.value v where
  wf := h.1
  value := rfl
  key t := ⟨fun hc => absurd hc List.not_mem_nil, fun _ => ⟨h.2 t, (value_cache _ _ t).symm⟩⟩

/-- What `ModifyCoins` hands out, if the value was not lost. -/
theorem Tracks.openModifier (usage : CCoins → ℕ) (h : Tracks below created S w)
    (hkept : txid ∈ created → S txid ≠ none) :
    let (e, _, base) := w.openModifier usage txid
    CCoins.norm (some e.coins) = S txid ∧ e.dirty = true ∧
      (txid ∈ created → e.fresh = true) ∧
      (txid ∉ created → e.fresh = true → below txid = none) ∧
      base.Wf ∧ base.value = below := by
  obtain ⟨hcreated, hother⟩ := h.key txid
  rw [CCoinsViewCache.openModifier]
  cases he : w.data.cacheCoins.lookup txid with
  | some e =>
    rw [he] at hcreated hother
    refine ⟨?_, rfl, fun hc => (hcreated hc).1, fun hc hf => ?_, h.wf, h.value⟩
    · by_cases hc : txid ∈ created
      · obtain ⟨-, -, -, hx, hp⟩ := hcreated hc
        rw [hx, CCoins.norm_some_of_not_pruned hp]
      · exact (hother hc).2
    · exact ((hother hc).1 e rfl).absent hf
  | none =>
    rw [he] at hcreated hother
    have hnot : txid ∉ created := fun hc => hkept hc (hcreated hc)
    have hx : below txid = S txid := (hother hnot).2
    have hfst := getCoins_fst usage w.base txid
    have hwf := h.wf.getCoins usage txid
    have hval := funext fun t => value_getCoins usage w.base txid t
    have hbelow : CCoins.norm (w.base.getCoins usage txid).1 = below txid := by
      rw [hfst, ← h.value]
      rfl
    simp only
    cases hget : w.base.getCoins usage txid with
    | mk r base =>
      rw [hget] at hwf hval hbelow
      simp only at hwf hval hbelow
      cases r with
      | none =>
        refine ⟨?_, rfl, fun hc => absurd hc hnot, fun _ _ => hbelow.symm, hwf, hval.trans h.value⟩
        rw [← hx, ← hbelow]
        exact CCoins.norm_some_of_pruned rfl
      | some c =>
        refine ⟨hbelow.trans hx, rfl, fun hc => absurd hc hnot, fun _ hf => ?_, hwf,
          hval.trans h.value⟩
        rw [← hbelow]
        exact CCoins.norm_some_of_pruned hf

/-- **`ModifyCoins`.** -/
theorem Tracks.modifyCoins (usage : CCoins → ℕ) {α : Type} (h : Tracks below created S w)
    (txid : Uint256) (hkept : txid ∈ created → S txid ≠ none) (edit : CCoins → α × CCoins) :
    ∃ c, CCoins.norm (some c) = S txid ∧ (w.modifyCoins usage txid edit).1 = (edit c).1 ∧
      Tracks below created
        (Function.update S txid (CCoins.norm (some (edit c).2.cleanup)))
        (w.modifyCoins usage txid edit).2 := by
  have hopen := h.openModifier usage hkept
  rw [CCoinsViewCache.modifyCoins]
  cases ho : w.openModifier usage txid with
  | mk e rest =>
    obtain ⟨old, base⟩ := rest
    rw [ho] at hopen
    obtain ⟨hnorm, hdirty, hcreated, hfresh, hwf, hval⟩ := hopen
    refine ⟨e.coins, hnorm, rfl, hwf, hval, fun t => ?_⟩
    simp only
    rw [lookup_closeModifier]
    by_cases ht : t = txid
    · subst ht
      rw [if_pos rfl, Function.update_self]
      exact keyOk_settled (e := { e with coins := (edit e.coins).2 }) hdirty hcreated hfresh
    · rw [if_neg ht, Function.update_of_ne ht]
      exact h.key t

/-- **`ModifyNewCoins`.** -/
theorem Tracks.modifyNewCoins (usage : CCoins → ℕ) (h : Tracks below created S w) (txid : Uint256)
    (edit : CCoins → CCoins) :
    Tracks below (txid :: created)
      (Function.update S txid (CCoins.norm (some (edit CCoins.empty).cleanup)))
      (w.modifyNewCoins usage txid edit) := by
  refine ⟨h.wf, h.value, fun t => ?_⟩
  rw [CCoinsViewCache.modifyNewCoins]
  simp only
  rw [lookup_closeModifier]
  by_cases ht : t = txid
  · subst ht
    rw [if_pos rfl, Function.update_self]
    exact keyOk_settled (e := ⟨edit CCoins.empty, true, true⟩) rfl (fun _ => rfl)
      fun hc => absurd List.mem_cons_self hc
  · have hiff : t ∈ txid :: created ↔ t ∈ created := by rw [List.mem_cons, or_iff_right ht]
    rw [if_neg ht, Function.update_of_ne ht, propext hiff]
    exact h.key t

/-! ## Transactions -/

/-- An input that `processBlock` spends passes the assertion, and has the same undo data. -/
theorem Tracks.updateInput (usage : CCoins → ℕ) (h : Tracks below created S w) {p : COutPoint}
    {u : CTxInUndo} (hs : Spends S p u S') :
    ∃ w', w.updateInput usage p = (some u, w') ∧ Tracks below created S' w' := by
  obtain ⟨c, o, hc, ho, hne, rfl, rfl⟩ := hs
  have hspend := CCoins.spend_of_isAvailable (CCoins.isAvailable_of_getElem? ho hne)
  obtain ⟨c', hc', hres, htracks⟩ := h.modifyCoins usage p.hash
    (fun _ => by rw [hc]; exact Option.some_ne_none c) fun coins =>
      match coins.vout[p.n]? with
      | none => (none, coins)
      | some txout =>
          if txout.isNull then (none, coins)
          else
            let coins := (coins.spend p.n).getD coins
            (some (undoFor txout coins), coins)
  -- the modifier is opened on the coins that `processBlock` read
  obtain rfl : c = c' := by
    rw [hc] at hc'
    exact Option.some.inj (Option.filter_eq_some_iff.mp hc').1.symm
  have hclean : (c.spent p.n).cleanup = c.spent p.n := CCoins.clean_spent c p.n
  simp only [ho, hne, hspend, Bool.false_eq_true, if_false, Option.getD_some] at hres htracks
  rw [hclean] at htracks
  exact ⟨_, Prod.ext hres rfl, htracks⟩

theorem Tracks.updateInputs : ∀ (ps : List COutPoint) {v v' w : CCoinsViewCache}
    {inputs : List CCoins} {us : CTxUndo}, v.view.Wf → Tracks below created v.view.value w →
    v.spendInputs usage ps = (.ok (inputs, us), v') →
    v'.view.Wf ∧ ∃ w', w.updateInputs usage ps = some (us, w') ∧
      Tracks below created v'.view.value w' := by
  intro ps
  induction ps with
  | nil =>
    intro v v' w inputs us hwf h hrun
    obtain ⟨hres, rfl⟩ := Prod.mk.inj hrun
    obtain ⟨-, rfl⟩ := Prod.mk.inj (Except.ok.inj hres)
    exact ⟨hwf, w, rfl, h⟩
  | cons p ps ih =>
    intro v v' w inputs us hwf h hrun
    obtain ⟨coin, u, v₁, inputs', us', hone, hrest, heq⟩ := of_spendInputs_cons hrun
    obtain ⟨-, rfl⟩ := Prod.mk.inj heq
    obtain ⟨hs, hwf₁⟩ := spendInput_spec hwf hone
    obtain ⟨w₁, hw₁, htracks⟩ := h.updateInput usage hs
    obtain ⟨hwf', w', hw', h'⟩ := ih hwf₁ htracks hrest
    refine ⟨hwf', w', ?_, h'⟩
    rw [CCoinsViewCache.updateInputs, hw₁]
    simp only
    rw [hw']
    rfl

/-- **A transaction behind the coinbase.** -/
theorem Tracks.updateCoins {tx : CTransaction} (hcb : tx.isCoinBase = false) {nHeight : Int32}
    {inputs : List CCoins} {us : CTxUndo} {v₁ : CCoinsViewCache} (hwf : v.view.Wf)
    (h : Tracks below created v.view.value w)
    (hspend : v.spendInputs usage tx.prevouts = (.ok (inputs, us), v₁))
    (hcreate : v₁.createCoins usage tx nHeight .checkDuplicateTxId = (.ok (), v')) :
    v'.view.Wf ∧ ∃ w', w.updateCoins usage tx nHeight = some (us, w') ∧
      Tracks below (tx.hash :: created) v'.view.value w' := by
  obtain ⟨hwf₁, w₁, hw₁, h₁⟩ := Tracks.updateInputs tx.prevouts hwf h hspend
  obtain ⟨-, hwf', hval⟩ := createCoins_spec hwf₁ hcreate
  have hclean : (CCoins.fromTx tx nHeight).cleanup = CCoins.fromTx tx nHeight :=
    CCoins.clean_cleanup _
  have hnew := h₁.modifyNewCoins usage tx.hash fun _ => CCoins.fromTx tx nHeight
  rw [hclean, ← hval] at hnew
  refine ⟨hwf', _, ?_, hnew⟩
  rw [CCoinsViewCache.updateCoins, hcb, if_neg Bool.false_ne_true, hw₁]
  rfl

/-- The transactions behind the coinbase. -/
theorem Tracks.updateBlock {nHeight : Int32} : ∀ (txs : List CTransaction)
    {created : List Uint256} {v v' w : CCoinsViewCache} {answer : List (List CCoins)}
    {undo : CBlockUndo}, txs.any CTransaction.isCoinBase = false → v.view.Wf →
    Tracks below created v.view.value w →
    v.processTransactions usage nHeight .checkDuplicateTxId txs = (.ok (answer, undo), v') →
    v'.view.Wf ∧ ∃ w', w.updateBlock usage nHeight txs = some (undo, w') ∧
      Tracks below ((txs.map CTransaction.hash).reverse ++ created) v'.view.value w' := by
  intro txs
  induction txs with
  | nil =>
    intro created v v' w answer undo _ hwf h hrun
    obtain ⟨hres, rfl⟩ := Prod.mk.inj hrun
    obtain ⟨-, rfl⟩ := Prod.mk.inj (Except.ok.inj hres)
    exact ⟨hwf, w, rfl, h⟩
  | cons tx txs ih =>
    intro created v v' w answer undo hcb hwf h hrun
    rw [List.any_cons, Bool.or_eq_false_iff] at hcb
    obtain ⟨inputs, us, v₁, v₂, answer', undo', hspend, hcreate, hrest, heq⟩ :=
      of_processTransactions_cons hrun
    obtain ⟨-, rfl⟩ := Prod.mk.inj heq
    obtain ⟨hwf₂, w₂, hw₂, h₂⟩ := h.updateCoins hcb.1 hwf hspend hcreate
    obtain ⟨hwf', w', hw', h'⟩ := ih hcb.2 hwf₂ h₂ hrest
    refine ⟨hwf', w', ?_, ?_⟩
    · rw [CCoinsViewCache.updateBlock, hw₂]
      simp only [Option.bind_eq_bind, Option.bind_some]
      rw [hw']
      rfl
    · rw [List.map_cons, List.reverse_cons, List.append_assoc]
      exact h'

/-! ## Flushing -/

/-- What `BatchWrite` leaves of an entry, whose flags may be wrong if something is unspent. -/
theorem value_batchWrite {u : CCoinsView} (hu : u.Wf) {m : CCoinsMap} (hashBlock : Uint256)
    {t : Uint256} (hm : ∀ e, m.lookup t = some e →
      EntryOk (u.value t) e ∨ e.dirty = true ∧ ¬ e.coins.isPruned = true) :
    (u.batchWrite usage m hashBlock).value t = overlay (u.value t) (m.lookup t) := by
  cases u with
  | db d =>
    simp only [batchWrite, CCoinsView.value, CCoinsView.lookup]
    rw [lookup_writeToDB]
    cases hl : m.lookup t with
    | none => rfl
    | some e =>
      rcases hm e hl with hok | ⟨hd, hp⟩
      · exact (mergeRecord_spec (hu t) hok).2
      · change CCoins.norm (mergeRecord e _) = CCoins.norm (some e.coins)
        rw [mergeRecord, if_pos hd, if_neg hp]
  | cache data base =>
    rw [batchWrite, value_cache, lookup_writeToCache, value_cache]
    cases hl : m.lookup t with
    | none => rfl
    | some e =>
      rcases hm e hl with hok | ⟨hd, hp⟩
      · rw [value_cache] at hok
        exact (mergeEntry_spec (hu.2 t) hok).2
      · change overlay _ (mergeEntry e (data.cacheCoins.lookup t)) = CCoins.norm (some e.coins)
        have hkeep : ∀ b : Bool, ¬ (b && e.coins.isPruned) = true := by
          intro b hb
          exact hp (Bool.and_eq_true_iff.mp hb).2
        rw [mergeEntry.eq_def, if_pos hd]
        cases data.cacheCoins.lookup t with
        | none =>
          simp only
          rw [if_neg (hkeep _)]
          rfl
        | some us =>
          simp only
          rw [if_neg (hkeep _)]
          rfl

/-- What is there below after a `Flush`: the values, but for a transaction whose coins `ModifyNewCoins`
made and which has none left.  There what was below stays. -/
theorem Tracks.value_flush (h : Tracks below created S w) (t : Uint256) :
    (w.flush usage).base.value t = if t ∈ created ∧ S t = none then below t else S t := by
  obtain ⟨hcreated, hother⟩ := h.key t
  have hflush : (w.flush usage).base.value t
      = overlay (w.base.value t) (w.data.cacheCoins.lookup t) := by
    refine value_batchWrite h.wf _ fun e he => ?_
    rw [he] at hcreated hother
    by_cases hc : t ∈ created
    · obtain ⟨-, hdirty, -, -, hp⟩ := hcreated hc
      exact .inr ⟨hdirty, hp⟩
    · rw [h.value]
      exact .inl ((hother hc).1 e rfl)
  rw [hflush, h.value]
  by_cases hc : t ∈ created
  · have hkey := hcreated hc
    cases he : w.data.cacheCoins.lookup t with
    | none =>
      rw [he] at hkey
      rw [if_pos ⟨hc, hkey⟩]
      rfl
    | some e =>
      rw [he] at hkey
      obtain ⟨-, -, -, hx, hp⟩ := hkey
      rw [if_neg (fun hboth => by rw [hx] at hboth; cases hboth.2), hx]
      exact CCoins.norm_some_of_not_pruned hp
  · rw [if_neg (fun hboth => hc hboth.1)]
    exact (hother hc).2

/-! ## Blocks -/

/-- **The two ways.**  `UpdateCoins` goes through a block that `processBlock` accepts, and collects the
same undo data.  After `Flush` the view below is the same, but for transactions behind the coinbase
that have no unspent outputs at the end: it keeps what it had for them. -/
theorem updateBlock_tracks {block : List CTransaction} (hblock : CoinbaseFirst block)
    {nHeight : Int32} {answer : List (List CCoins)} {undo : CBlockUndo} (hwf : v.view.Wf)
    (hrun : v.processBlock usage block nHeight .checkDuplicateTxId = (.ok (answer, undo), v')) :
    ∃ w, v.updateBlock usage nHeight block = some ([] :: undo, w) ∧ ∀ t,
      (w.flush usage).base.value t =
        if t ∈ block.tail.map CTransaction.hash ∧ (v'.flush usage).base.value t = none then
          v.base.value t
        else (v'.flush usage).base.value t := by
  cases block with
  | nil => cases hblock.1
  | cons coinbase txs =>
    obtain ⟨hcb, hrest⟩ := hblock
    change coinbase.isCoinBase = true at hcb
    obtain ⟨v₁, answer', hcreate, htxs, -⟩ := of_processBlock_cons hrun
    obtain ⟨-, hwf₁, hval₁⟩ := createCoins_spec hwf hcreate
    have hclean : (CCoins.fromTx coinbase nHeight).cleanup = CCoins.fromTx coinbase nHeight :=
      CCoins.clean_cleanup _
    obtain ⟨-, -, -, h₁⟩ := (tracks_of_wf hwf).modifyCoins usage coinbase.hash
      (fun hc => absurd hc List.not_mem_nil) fun _ => ((), CCoins.fromTx coinbase nHeight)
    rw [hclean, ← hval₁] at h₁
    obtain ⟨hwf', w, hw, h⟩ := Tracks.updateBlock txs hrest hwf₁ h₁ htxs
    have hbase : (v'.flush usage).base.value = v'.view.value := (flush_spec usage hwf').2.2.1
    refine ⟨w, ?_, fun t => ?_⟩
    · rw [CCoinsViewCache.updateBlock, CCoinsViewCache.updateCoins, if_pos hcb]
      simp only [Option.bind_eq_bind, Option.bind_some]
      rw [hw]
      rfl
    · rw [h.value_flush, hbase, List.append_nil]
      exact if_congr (and_congr_left fun _ => List.mem_reverse) rfl rfl

/-- **`UpdateCoins` and `processBlock`.**  The contents below are the same after `Flush` exactly when
every transaction behind the coinbase of which there was something unspent below has something
unspent after the block. -/
theorem updateBlock_agrees_iff (usage : CCoins → ℕ) {v v' : CCoinsViewCache} (hv : v.view.Wf)
    {block : List CTransaction} (hblock : CoinbaseFirst block) {nHeight : Int32}
    {answer : List (List CCoins)} {undo : CBlockUndo}
    (hrun : v.processBlock usage block nHeight .checkDuplicateTxId = (.ok (answer, undo), v')) :
    ∃ w, v.updateBlock usage nHeight block = some ([] :: undo, w) ∧
      ((w.flush usage).base.value = (v'.flush usage).base.value ↔
        ∀ tx ∈ block.tail, v.base.value tx.hash ≠ none →
          (v'.flush usage).base.value tx.hash ≠ none) := by
  obtain ⟨w, hw, hval⟩ := updateBlock_tracks hblock hv hrun
  refine ⟨w, hw, ?_⟩
  constructor
  · intro heq tx htx hbelow hnone
    have ht := hval tx.hash
    rw [if_pos ⟨List.mem_map_of_mem htx, hnone⟩, heq, hnone] at ht
    exact hbelow ht.symm
  · intro hall
    funext t
    rw [hval]
    split_ifs with hlost
    · obtain ⟨hmem, hnone⟩ := hlost
      obtain ⟨tx, htx, rfl⟩ := List.mem_map.mp hmem
      rw [hnone]
      by_contra hbelow
      exact hall tx htx hbelow hnone
    · rfl

theorem updateBlock_agrees_chainBlock : ∃ answer undo v' w,
    overEmpty.processBlock (fun _ => 0) chainBlock 1 .checkDuplicateTxId
      = (.ok (answer, undo), v') ∧
    overEmpty.updateBlock (fun _ => 0) 1 chainBlock = some ([] :: undo, w) ∧
    (w.flush fun _ => 0).base.value = (v'.flush fun _ => 0).base.value := by
  have hok : (overEmpty.processBlock (fun _ => 0) chainBlock 1 .checkDuplicateTxId).1.isOk
      = true := by decide
  cases hrun : overEmpty.processBlock (fun _ => 0) chainBlock 1 .checkDuplicateTxId with
  | mk r v' =>
    rw [hrun] at hok
    cases r with
    | error e => cases hok
    | ok r =>
      obtain ⟨w, hw, hiff⟩ := updateBlock_agrees_iff (fun _ => 0) wf_overEmpty (by decide) hrun
      exact ⟨r.1, r.2, v', w, rfl, hw, hiff.mpr fun tx _ hbelow => absurd rfl hbelow⟩

end CCoinsViewCache
