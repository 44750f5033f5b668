/-
# Runs of a pool over coins

What holds along every run of operations of the pool, over any coins, when they are called
as the program calls them: entries come from `TxValidationState::checkTransaction`, and
blocks are valid.  No operation fails then, and the pool stays sound (`poolOk_of_run`).

`linked_of_run`: the links are the pairs of transactions of which one spends an output of
the other, and every input is an output of the pool or an unspent coin.

`packaged_iff_of_run`: the totals of an entry are those of the entry with its descendants
as long as no entry with a fee enters the pool.
-/
import Hub.MemPoolBacked

/-! ## Calls of the operations -/

namespace PoolOp

/-- No two transactions have the same hash, a block has a coinbase and is accepted by
`processBlock`, and `TrimToSize` does not come to read the first entry of an empty pool.
A block comes with `connectBlock`, which gives `removeForBlock` its cursor. -/
def Allowed (usage : CCoins → ℕ) (mu : MemUsage) (lowest : CTxMemPool → Option Uint256)
    (body : Uint256 → CTransaction) (s : CTxMemPool) : PoolOp → Prop
  | .insertTx entry => body entry.tx.hash = entry.tx
  | .removeForBlock _ _ => False
  | .connectBlock vtx nHeight _ => vtx.head?.all CTransaction.isCoinBase = true ∧
      ((CCoinsViewCache.create s.coins).processBlock usage vtx nHeight
        .checkDuplicateTxId).1.isOk = true ∧ ∀ tx ∈ vtx, body tx.hash = tx
  | .trimToSize sizelimit => (s.trimToSize mu lowest sizelimit).isSome = true
  | .remove _ | .removeConflicts _ | .removeForReorg _ _ | .expire _
  | .prioritiseTransaction _ _ | .clear => True

/-- An entry that is inserted comes from `TxValidationState::checkTransaction`. -/
def Accepted (blockHeight : ℤ) (s : CTxMemPool) : PoolOp → Prop
  | .insertTx entry => TxValidationState.checkTransaction s entry.tx entry.nTime
      entry.nUsageSize blockHeight = .ok entry
  | _ => True

/-- An operation as the program calls it. -/
def Legal (usage : CCoins → ℕ) (mu : MemUsage) (lowest : CTxMemPool → Option Uint256)
    (body : Uint256 → CTransaction) (s : CTxMemPool) (op : PoolOp) : Prop :=
  op.Allowed usage mu lowest body s ∧ ∃ blockHeight, op.Accepted blockHeight s

/-- An entry that enters the pool has no fee. -/
def Feeless (s : CTxMemPool) : PoolOp → Prop
  | .insertTx entry => s.Enters entry → entry.nFee = 0
  | _ => True

section

variable {usage : CCoins → ℕ} {mu : MemUsage} {lowest : CTxMemPool → Option Uint256}
  {body : Uint256 → CTransaction} {blockHeight : ℤ} {s : CTxMemPool}

instance : ∀ op : PoolOp, Decidable (op.Allowed usage mu lowest body s)
  | .insertTx entry => inferInstanceAs (Decidable (body entry.tx.hash = entry.tx))
  | .removeForBlock _ _ => .isFalse id
  | .connectBlock vtx nHeight _ => inferInstanceAs (Decidable (
      vtx.head?.all CTransaction.isCoinBase = true ∧
      ((CCoinsViewCache.create s.coins).processBlock usage vtx nHeight
        .checkDuplicateTxId).1.isOk = true ∧ ∀ tx ∈ vtx, body tx.hash = tx))
  | .trimToSize sizelimit =>
      inferInstanceAs (Decidable ((s.trimToSize mu lowest sizelimit).isSome = true))
  | .remove _ | .removeConflicts _ | .removeForReorg _ _ | .expire _
  | .prioritiseTransaction _ _ | .clear => .isTrue trivial

instance : ∀ op : PoolOp, Decidable (op.Accepted blockHeight s)
  | .insertTx entry => inferInstanceAs (Decidable (TxValidationState.checkTransaction s entry.tx
      entry.nTime entry.nUsageSize blockHeight = .ok entry))
  | .remove _ | .removeForBlock _ _ | .connectBlock _ _ _ | .removeConflicts _
  | .removeForReorg _ _ | .expire _ | .trimToSize _ | .prioritiseTransaction _ _
  | .clear => .isTrue trivial

instance : ∀ op : PoolOp, Decidable (op.Feeless s)
  | .insertTx entry => inferInstanceAs (Decidable (s.Enters entry → entry.nFee = 0))
  | .remove _ | .removeForBlock _ _ | .connectBlock _ _ _ | .removeConflicts _
  | .removeForReorg _ _ | .expire _ | .trimToSize _ | .prioritiseTransaction _ _
  | .clear => .isTrue trivial

end

end PoolOp

namespace CTxMemPool

variable {usage : CCoins → ℕ} {mu : MemUsage} {lowest : CTxMemPool → Option Uint256}
  {body : Uint256 → CTransaction} {s s' t : CTxMemPool}

/-- The pool is sound over its own coins. -/
structure PoolOk (body : Uint256 → CTransaction) (s : CTxMemPool) : Prop where
  wf : s.coins.Wf
  sound : Sound body s.coins.value s

theorem PoolOk.shrinks (h : PoolOk body s) (hg : Graph t) (hs : Shrinks s t) :
    PoolOk body t := by
  refine ⟨?_, ?_⟩
  · rw [hs.coins]
    exact h.wf
  · rw [hs.coins]
    exact h.sound.shrinks hg hs

theorem PoolOk.withCoins (h : PoolOk body s) {view : CCoinsView} (hwf : view.Wf)
    (hval : view.value = s.coins.value) : PoolOk body { s with coins := view } := by
  refine ⟨hwf, ?_⟩
  show Sound body view.value _
  rw [hval]
  exact h.sound.withCoins view

/-- **A step** does not fail, and keeps the pool sound. -/
theorem PoolOk.step (h : PoolOk body s) {op : PoolOp}
    (hop : op.Legal usage mu lowest body s) :
    ∃ s', s.step usage mu lowest op = some s' ∧ PoolOk body s' := by
  obtain ⟨hallowed, blockHeight, haccepted⟩ := hop
  cases op with
  | insertTx entry =>
    by_cases henters : s.Enters entry
    · obtain ⟨s', hs', hwf, hsound, -⟩ := insertTx_of_enters usage mu h.wf
        h.sound haccepted hallowed henters
      exact ⟨s', by rw [CTxMemPool.step, hs']; rfl, hwf, hsound⟩
    · obtain ⟨r, view, hr, hwf, hval⟩ :=
        insertTx_of_not_enters usage mu h.wf henters
      exact ⟨{ s with coins := view }, by rw [CTxMemPool.step, hr]; rfl, h.withCoins hwf hval⟩
  | remove tx =>
    obtain ⟨removed, v, hv, hg, hsh, -, -⟩ := remove_graph mu h.sound.graph tx
    exact ⟨v, by rw [CTxMemPool.step, hv]; rfl, h.shrinks hg hsh⟩
  | removeForBlock vtx cursor => exact hallowed.elim
  | connectBlock vtx nHeight hashBlock =>
    obtain ⟨hcoinbase, hok, hbody⟩ := hallowed
    obtain ⟨conflicts, s', hs', hwf, hsound⟩ := connectBlock_sound usage mu h.wf h.sound hashBlock
      (fun tx htx => by rw [htx] at hcoinbase; exact hcoinbase) hbody hok
    exact ⟨s', by rw [CTxMemPool.step, hs']; rfl, hwf, hsound⟩
  | removeConflicts tx =>
    obtain ⟨conflicts, v, hv, hg, hsh, -⟩ := removeConflicts_graph mu h.sound.graph tx
    exact ⟨v, by rw [CTxMemPool.step, hv]; rfl, h.shrinks hg hsh⟩
  | removeForReorg nMemPoolHeight final =>
    obtain ⟨hwf, hval⟩ := reorgRemovals_view usage s nMemPoolHeight final
      (s.mapTx.entries.map Sigma.snd) h.wf
    have h₁ := h.withCoins hwf hval
    obtain ⟨v, hv, hg, hsh⟩ := removes_graph mu h₁.sound.graph
      (s.reorgRemovals usage nMemPoolHeight final (s.mapTx.entries.map Sigma.snd) s.coins).1
    exact ⟨v, hv, h₁.shrinks hg hsh⟩
  | expire time =>
    obtain ⟨n, v, hv, hg, hsh⟩ := expire_graph mu h.sound.graph time
    exact ⟨v, by rw [CTxMemPool.step, hv]; rfl, h.shrinks hg hsh⟩
  | trimToSize sizelimit =>
    obtain ⟨r, hr⟩ := Option.isSome_iff_exists.mp hallowed
    obtain ⟨hg, hsh⟩ := trim_graph h.sound.graph hr
    exact ⟨r.2, by rw [CTxMemPool.step, hr]; rfl, h.shrinks hg hsh⟩
  | prioritiseTransaction hash nFeeDelta =>
    obtain ⟨v, hv, hg, htx, hcoins⟩ :=
      prioritiseTransaction_graph h.sound.graph hash nFeeDelta
    exact ⟨v, hv, h.shrinks hg (Shrinks.of_eq htx hcoins)⟩
  | clear => exact ⟨s.clear, rfl, h.wf, sound_of_empty rfl rfl rfl⟩

theorem poolOk_empty {coins : CCoinsView} (h : coins.Wf) : PoolOk body (empty coins) :=
  ⟨h, sound_of_empty rfl rfl rfl⟩

/-- Every run from an empty pool is sound. -/
theorem poolOk_of_run {coins : CCoinsView} (hcoins : coins.Wf) {ops : List PoolOp}
    (hops : Runs.Each (step usage mu lowest) (PoolOp.Legal usage mu lowest body)
      (empty coins) ops) :
    Runs.Always (step usage mu lowest) (PoolOk body) (empty coins) ops :=
  Runs.always_of_each (fun _ _ h hop => h.step hop) ops (empty coins) (poolOk_empty hcoins) hops

/-! ## The links -/

end CTxMemPool

/-- One of the inputs of `tx` is an output of `tx'`. -/
def CTransaction.SpendsOutputOf (tx tx' : CTransaction) : Prop :=
  ∃ o ∈ tx.prevouts, o.hash = tx'.hash ∧ o.n < tx'.vout.length

namespace CTxMemPool

variable {usage : CCoins → ℕ} {mu : MemUsage} {lowest : CTxMemPool → Option Uint256}
  {body : Uint256 → CTransaction} {s s' t : CTxMemPool}

/-- The parents of an entry are the entries one of whose outputs it spends, the children
the entries that spend one of its outputs, and every input is an output of an entry or an
unspent coin. -/
structure Linked (s : CTxMemPool) : Prop where
  parents : ∀ c tx, s.txAt c = some tx → ∃ ps, s.getMemPoolParents c = some ps ∧
    ∀ p, p ∈ ps ↔ ∃ tx', s.txAt p = some tx' ∧ tx.SpendsOutputOf tx'
  children : ∀ p tx', s.txAt p = some tx' → ∃ cs, s.getMemPoolChildren p = some cs ∧
    ∀ c, c ∈ cs ↔ ∃ tx, s.txAt c = some tx ∧ tx.SpendsOutputOf tx'
  inputs : ∀ c tx, s.txAt c = some tx → ∀ o ∈ tx.prevouts,
    (∃ tx', s.txAt o.hash = some tx' ∧ o.n < tx'.vout.length) ∨ Unspent s.coins.value o

/-- In a sound pool, whatever spends from a transaction spends one of its outputs. -/
theorem Sound.spendsFrom_iff {U : Uint256 → Option CCoins} (h : Sound body U s)
    {c p : Uint256} : s.SpendsFrom c p ↔
      ∃ tx tx', s.txAt c = some tx ∧ s.txAt p = some tx' ∧ tx.SpendsOutputOf tx' := by
  constructor
  · rintro ⟨tx, hc, hp, o, ho, rfl⟩
    obtain ⟨tx', htx'⟩ := exists_txAt hp
    refine ⟨tx, tx', hc, htx', o, ho, (h.graph.next.hash _ _ htx').symm, ?_⟩
    rcases h.inputs c tx hc o ho with ⟨tx'', htx'', hav⟩ | ⟨d, hd, -⟩
    · obtain rfl := Option.some.inj (htx'.symm.trans htx'')
      obtain ⟨out, hout, -⟩ := CCoins.exists_of_isAvailable_fromTx hav
      exact (List.getElem?_eq_some_iff.mp hout).1
    · rw [h.absent _ _ htx'] at hd
      cases hd
  · rintro ⟨tx, tx', hc, hp, o, ho, hhash, -⟩
    exact ⟨tx, hc, hasTx_of_txAt hp, o, ho, hhash.trans (h.graph.next.hash _ _ hp)⟩

theorem PoolOk.linked (h : PoolOk body s) : Linked s where
  parents c tx hc := by
    refine ⟨_, getMemPoolParents_of_hasTx h.sound.graph.keys (hasTx_of_txAt hc), fun p => ?_⟩
    rw [h.sound.graph.parents, h.sound.spendsFrom_iff, hc]
    constructor
    · rintro ⟨tx₁, tx', htx₁, htx', hspends⟩
      obtain rfl := Option.some.inj htx₁
      exact ⟨tx', htx', hspends⟩
    · rintro ⟨tx', htx', hspends⟩
      exact ⟨tx, tx', rfl, htx', hspends⟩
  children p tx' hp := by
    refine ⟨_, getMemPoolChildren_of_hasTx h.sound.graph.keys (hasTx_of_txAt hp), fun c => ?_⟩
    rw [h.sound.graph.children, h.sound.spendsFrom_iff, hp]
    constructor
    · rintro ⟨tx, tx₁, htx, htx₁, hspends⟩
      obtain rfl := Option.some.inj htx₁
      exact ⟨tx, htx, hspends⟩
    · rintro ⟨tx, htx, hspends⟩
      exact ⟨tx, tx', htx, rfl, hspends⟩
  inputs c tx hc o ho := by
    rcases h.sound.inputs c tx hc o ho with ⟨tx', htx', hav⟩ | hun
    · obtain ⟨out, hout, -⟩ := CCoins.exists_of_isAvailable_fromTx hav
      exact .inl ⟨tx', htx', (List.getElem?_eq_some_iff.mp hout).1⟩
    · exact .inr hun

/-- **The link graph.**  In every run of the operations from an empty pool over any coins,
no operation fails, the links are the edges of the graph, and every input is an output of
the pool or an unspent coin. -/
theorem linked_of_run (usage : CCoins → ℕ) (mu : MemUsage)
    (lowest : CTxMemPool → Option Uint256) (body : Uint256 → CTransaction) {coins : CCoinsView}
    (hcoins : coins.Wf) (ops : List PoolOp)
    (hops : Runs.Each (step usage mu lowest) (PoolOp.Legal usage mu lowest body)
      (empty coins) ops) :
    Runs.Always (step usage mu lowest) Linked (empty coins) ops :=
  (poolOk_of_run hcoins hops).mono fun _ h => h.linked

/-- A coinbase. -/
def coinbaseTx : CTransaction := ⟨9, 1, [CCoinsViewCache.coinbaseInput], [⟨60, [0x51]⟩], 0⟩

/-- It spends the output of `parentTx` that cannot be spent. -/
def strayTx : CTransaction := ⟨5, 1, [⟨⟨2, 1⟩, [], 0⟩], [⟨0, [0x51]⟩], 0⟩

/-- The transactions of the examples. -/
def sampleBody (h : Uint256) : CTransaction :=
  if h = 2 then parentTx else if h = 3 then childTx else if h = 5 then strayTx
  else if h = 9 then coinbaseTx else rivalTx

theorem wf_oneCoin : oneCoin.Wf := by
  refine ⟨fun t c h => ?_, fun t e h => by cases h⟩
  by_cases ht : t = 1
  · subst ht
    obtain rfl := Option.some.inj ((AList.lookup_insert _).symm.trans h)
    decide
  · rw [AList.lookup_insert_ne ht] at h
    cases h

/-- The parent is confirmed in a block, and the child, which stays, is trimmed. -/
def confirmRun : List PoolOp :=
  [.insertTx (.ofTx parentTx 0 1 10 true), .insertTx (.ofTx childTx 1 1 10 false),
    .prioritiseTransaction 3 7, .connectBlock [coinbaseTx, parentTx] 150 77, .expire 1,
    .trimToSize 2, .remove childTx]

theorem linked_of_run_confirmRun :
    ((confirmRun.take 5).foldlM (step (fun _ => 0) ⟨1, 1, 1, 1, 1⟩ fun s => s.mapTx.keys.head?)
      (empty oneCoin)).map (fun s => s.mapTx.keys) = some [3] ∧
    Runs.Always (step (fun _ => 0) ⟨1, 1, 1, 1, 1⟩ fun s => s.mapTx.keys.head?) Linked
      (empty oneCoin) confirmRun := by
  refine ⟨by decide +kernel, linked_of_run _ _ _ sampleBody wf_oneCoin _ ?_⟩
  have hops : Runs.Each (step (fun _ => 0) ⟨1, 1, 1, 1, 1⟩ fun s => s.mapTx.keys.head?)
      (fun s op => op.Allowed (fun _ => 0) ⟨1, 1, 1, 1, 1⟩ (fun s => s.mapTx.keys.head?)
        sampleBody s ∧ op.Accepted 150 s) (empty oneCoin) confirmRun := by decide +kernel
  exact hops.mono fun s op h => ⟨h.1, 150, h.2⟩

/-- `insertTx` itself takes a transaction that spends an unspendable output of the pool.
When the block with the parent comes, its input is gone. -/
theorem not_linked_of_run_strayTx :
    ¬ ∀ (usage : CCoins → ℕ) (mu : MemUsage) (lowest : CTxMemPool → Option Uint256)
        (body : Uint256 → CTransaction) (coins : CCoinsView) (ops : List PoolOp), coins.Wf →
      Runs.Each (step usage mu lowest) (PoolOp.Allowed usage mu lowest body) (empty coins) ops →
      ∀ s, ops.foldlM (step usage mu lowest) (empty coins) = some s → Linked s := by
  intro h
  have hrun : (([.insertTx (.ofTx parentTx 0 1 10 true), .insertTx (.ofTx strayTx 1 1 0 false),
      .connectBlock [coinbaseTx, parentTx] 150 77] : List PoolOp).foldlM
      (step (fun _ => 0) ⟨1, 1, 1, 1, 1⟩ fun s => s.mapTx.keys.head?) (empty oneCoin)).map
      (fun s => (s.txAt 5, s.txAt 2, (s.coins.value 2).map (·.isAvailable 1)))
      = some (some strayTx, none, some false) := by decide +kernel
  obtain ⟨s, hs, heq⟩ := Option.map_eq_some_iff.mp hrun
  simp only [Prod.mk.injEq] at heq
  obtain ⟨hstray, hparent, hcoins⟩ := heq
  have hlinked := h (fun _ => 0) ⟨1, 1, 1, 1, 1⟩ (fun s => s.mapTx.keys.head?) sampleBody oneCoin
    _ wf_oneCoin (by decide +kernel) s hs
  rcases hlinked.inputs 5 strayTx hstray ⟨2, 1⟩ (by decide) with ⟨tx', htx', -⟩ | ⟨c, hc, hav⟩
  · rw [hparent] at htx'
    cases htx'
  · rw [hc] at hcoins
    rw [Option.map_some, hav] at hcoins
    cases hcoins

/-! ## The totals -/

/-- The entry `a` with its descendants. -/
noncomputable def package (s : CTxMemPool) (a : Uint256) : Finset Uint256 :=
  insert a (s.descendants a)

/-- The totals of an entry are the number, the size and the modified fees of the entry with
its descendants. -/
def Packaged (s : CTxMemPool) : Prop :=
  ∀ a e, s.mapTx.lookup a = some e → e.isDirty = false →
    e.nCountWithDescendants = (s.package a).card ∧
    e.nSizeWithDescendants = ∑ x ∈ s.package a, s.sizeAt x ∧
    e.nModFeesWithDescendants = ∑ x ∈ s.package a, s.feeAt x

/-- No entry has a fee. -/
def Free (s : CTxMemPool) : Prop := ∀ a e, s.mapTx.lookup a = some e → e.nFee = 0

/-- The own fee of an entry is what is missing from its totals. -/
theorem Graph.packaged_iff (h : Graph s) : Packaged s ↔ Free s := by
  have hnot : ∀ a, a ∉ s.descendants a := fun a ha => h.acyclic a (mem_descendants.mp ha)
  have hfee : ∀ a e, s.mapTx.lookup a = some e →
      ∑ x ∈ s.package a, s.feeAt x = e.nFee + e.nModFeesWithDescendants := by
    intro a e he
    have hfees := (h.totals a e he).fees
    rw [package, Finset.sum_insert (hnot a), feeAt_of_lookup he, CTxMemPoolEntry.modifiedFee]
    omega
  constructor
  · intro hp a e he
    have hcount := (h.totals a e he).count
    have hclean : e.isDirty = false := by
      rw [CTxMemPoolEntry.isDirty, beq_eq_false_iff_ne]
      omega
    have htotal := (hp a e he hclean).2.2
    rw [hfee a e he] at htotal
    omega
  · intro hfree a e he _
    refine ⟨?_, ?_, ?_⟩
    · have hcount := (h.totals a e he).count
      rw [package, Finset.card_insert_of_notMem (hnot a)]
      omega
    · rw [package, Finset.sum_insert (hnot a), sizeAt_of_lookup he]
      exact (h.totals a e he).size
    · rw [hfee a e he, hfree a e he, zero_add]

theorem nFee_of_core {e e' : CTxMemPoolEntry} (h : e'.core = e.core) : e'.nFee = e.nFee := by
  have hfee := congrArg CTxMemPoolEntry.nFee h
  exact hfee

theorem Free.of_lookup (h : Free s)
    (hlookup : ∀ x e', s'.mapTx.lookup x = some e' → ∃ e, s.mapTx.lookup x = some e ∧
      e'.nFee = e.nFee) : Free s' := by
  intro x e' he'
  obtain ⟨e, he, hfee⟩ := hlookup x e' he'
  rw [hfee]
  exact h x e he

/-- The fee of an entry does not change. -/
theorem stable_free (mu : MemUsage) : Stable mu Free where
  frame h hf := h.of_lookup fun x e' he' => by
    obtain ⟨e, he, hcore⟩ := hf.lookup he'
    exact ⟨e, he, nFee_of_core hcore⟩
  removeUnchecked := by
    intro s s' it h hr
    simp only [removeUnchecked, Option.bind_eq_bind, Option.bind_eq_some_iff] at hr
    obtain ⟨e, -, hr⟩ := hr
    obtain rfl := Option.some.inj hr
    refine h.of_lookup fun x e' he' => ⟨e', ?_, rfl⟩
    by_cases hx : x = it
    · subst hx
      rw [AList.lookup_erase] at he'
      cases he'
    · rw [AList.lookup_erase_ne hx] at he'
      exact he'
  updateFeeDelta := by
    intro s it e h he delta
    refine h.of_lookup fun x e' he' => ?_
    by_cases hx : x = it
    · subst hx
      rw [AList.lookup_insert] at he'
      obtain rfl := Option.some.inj he'
      exact ⟨e, he, rfl⟩
    · rw [AList.lookup_insert_ne hx] at he'
      exact ⟨e', he', rfl⟩
  other h _ _ := h
  clear _ := fun x e he => by cases he

theorem nFee_withDelta (e : CTxMemPoolEntry) (delta : ℤ) : (e.withDelta delta).nFee = e.nFee := by
  unfold CTxMemPoolEntry.withDelta
  split
  · rfl
  · rfl

/-- An entry that enters a pool without fees brings in its own. -/
theorem free_insertTx_iff (h : PoolOk body s) (hfree : Free s) {entry : CTxMemPoolEntry}
    (hop : (PoolOp.insertTx entry).Legal usage mu lowest body s)
    (hs : s.step usage mu lowest (.insertTx entry) = some s') :
    Free s' ↔ (PoolOp.insertTx entry).Feeless s := by
  obtain ⟨hbody, blockHeight, hcheck⟩ := hop
  by_cases henters : s.Enters entry
  · obtain ⟨s₁, hs₁, -, -, hcore⟩ := insertTx_of_enters usage mu h.wf h.sound
      hcheck hbody henters
    rw [CTxMemPool.step, hs₁] at hs
    obtain rfl := Option.some.inj hs
    have hnew : ∀ x e', s₁.mapTx.lookup x = some e' →
        if x = entry.tx.hash then e'.nFee = entry.nFee
        else ∃ e, s.mapTx.lookup x = some e ∧ e'.nFee = e.nFee := by
      intro x e' he'
      have hx := hcore x
      rw [coreAt, he', Option.map_some] at hx
      split
      · next hxe =>
        rw [if_pos hxe] at hx
        rw [nFee_of_core (Option.some.inj hx), nFee_withDelta]
      · next hxe =>
        rw [if_neg hxe] at hx
        obtain ⟨e, he, hcore⟩ := Option.map_eq_some_iff.mp hx.symm
        exact ⟨e, he, nFee_of_core hcore.symm⟩
    constructor
    · intro hfree' _
      have hx := hcore entry.tx.hash
      rw [if_pos rfl] at hx
      obtain ⟨e, he, -⟩ := Option.map_eq_some_iff.mp hx
      have hfee := hnew entry.tx.hash e he
      rw [if_pos rfl] at hfee
      rw [← hfee]
      exact hfree' _ e he
    · intro hfeeless x e' he'
      have hx := hnew x e' he'
      split at hx
      · rw [hx]
        exact hfeeless henters
      · obtain ⟨e, he, hfee⟩ := hx
        rw [hfee]
        exact hfree x e he
  · obtain ⟨r, view, hr, -, -⟩ :=
      insertTx_of_not_enters usage mu h.wf henters
    rw [CTxMemPool.step, hr] at hs
    obtain rfl := Option.some.inj hs
    exact ⟨fun _ he => absurd he henters, fun _ => hfree⟩

/-- The pool has no fees as long as no entry with a fee enters. -/
theorem free_step_iff (h : PoolOk body s) (hfree : Free s) {op : PoolOp}
    (hop : op.Legal usage mu lowest body s) (hs : s.step usage mu lowest op = some s') :
    Free s' ↔ op.Feeless s := by
  by_cases hinsert : ∃ entry, op = .insertTx entry
  · obtain ⟨entry, rfl⟩ := hinsert
    exact free_insertTx_iff h hfree hop hs
  · have hnot : ∀ entry, op ≠ .insertTx entry := fun entry he => hinsert ⟨entry, he⟩
    refine ⟨fun _ => ?_, fun _ => (stable_free mu).step hfree hnot hs⟩
    cases op with
    | insertTx entry => exact absurd rfl (hnot entry)
    | _ => trivial

/-- **The totals.**  In a run of the operations from an empty pool, the totals of all
entries are those of the entry with its descendants, in every state, exactly when no entry
with a fee enters the pool. -/
theorem packaged_iff_of_run (usage : CCoins → ℕ) (mu : MemUsage)
    (lowest : CTxMemPool → Option Uint256) (body : Uint256 → CTransaction) {coins : CCoinsView}
    (hcoins : coins.Wf) (ops : List PoolOp)
    (hops : Runs.Each (step usage mu lowest) (PoolOp.Legal usage mu lowest body)
      (empty coins) ops) :
    Runs.Always (step usage mu lowest) Packaged (empty coins) ops ↔
      Runs.Each (step usage mu lowest) PoolOp.Feeless (empty coins) ops := by
  refine Runs.always_iff_each (I := fun s => PoolOk body s ∧ Free s)
    (L := PoolOp.Legal usage mu lowest body)
    (fun s h => h.1.sound.graph.packaged_iff.mpr h.2) ?_ ?_ ops (empty coins)
    ⟨poolOk_empty hcoins, fun a e he => by cases he⟩ hops
  · rintro s op ⟨hok, hfree⟩ hlegal hfeeless
    obtain ⟨s', hs', hok'⟩ := hok.step hlegal
    exact ⟨s', hs', hok', (free_step_iff hok hfree hlegal hs').mpr hfeeless⟩
  · rintro s op s' ⟨hok, hfree⟩ hlegal hfeeless hs' hpackaged
    obtain ⟨s₁, hs₁, hok₁⟩ := hok.step hlegal
    obtain rfl := Option.some.inj (hs'.symm.trans hs₁)
    exact hfeeless ((free_step_iff hok hfree hlegal hs').mp
      (hok₁.sound.graph.packaged_iff.mp hpackaged))

/-- It spends the coin, and pays no fee. -/
def freeTx : CTransaction := ⟨6, 1, [⟨⟨1, 0⟩, [], 0⟩], [⟨50, [0x51]⟩], 0⟩

/-- It spends the output of `freeTx`, and pays no fee, either. -/
def freeChildTx : CTransaction := ⟨7, 1, [⟨⟨6, 0⟩, [], 0⟩], [⟨50, [0x51]⟩], 0⟩

/-- The transactions of the run below. -/
def freeBody (h : Uint256) : CTransaction :=
  if h = 6 then freeTx else if h = 7 then freeChildTx else coinbaseTx

/-- Two transactions without fees; a fee delta does no harm. -/
def freeRun : List PoolOp :=
  [.insertTx (.ofTx freeTx 0 1 0 true), .insertTx (.ofTx freeChildTx 1 1 0 false),
    .prioritiseTransaction 7 3, .connectBlock [coinbaseTx, freeTx] 150 77, .remove freeChildTx]

theorem packaged_iff_of_run_freeRun :
    Runs.Always (step (fun _ => 0) ⟨1, 1, 1, 1, 1⟩ fun s => s.mapTx.keys.head?) Packaged
      (empty oneCoin) freeRun := by
  have hops : Runs.Each (step (fun _ => 0) ⟨1, 1, 1, 1, 1⟩ fun s => s.mapTx.keys.head?)
      (fun s op => op.Allowed (fun _ => 0) ⟨1, 1, 1, 1, 1⟩ (fun s => s.mapTx.keys.head?)
        freeBody s ∧ op.Accepted 150 s) (empty oneCoin) freeRun := by decide +kernel
  exact (packaged_iff_of_run _ _ _ freeBody wf_oneCoin _
    (hops.mono fun s op h => ⟨h.1, 150, h.2⟩)).mpr (by decide +kernel)

/-- The entry of a transaction that pays a fee of 10 says that its fees are 0. -/
theorem not_packaged_of_run_parentTx :
    ¬ ∀ (usage : CCoins → ℕ) (mu : MemUsage) (lowest : CTxMemPool → Option Uint256)
        (body : Uint256 → CTransaction) (coins : CCoinsView) (ops : List PoolOp), coins.Wf →
      Runs.Each (step usage mu lowest) (PoolOp.Legal usage mu lowest body) (empty coins) ops →
      Runs.Always (step usage mu lowest) Packaged (empty coins) ops := by
  intro h
  have hallowed : Runs.Each (step (fun _ => 0) ⟨1, 1, 1, 1, 1⟩ fun s => s.mapTx.keys.head?)
      (fun s op => op.Allowed (fun _ => 0) ⟨1, 1, 1, 1, 1⟩ (fun s => s.mapTx.keys.head?)
        sampleBody s ∧ op.Accepted 150 s) (empty oneCoin)
      [.insertTx (.ofTx parentTx 0 1 10 true)] := by decide +kernel
  have hops := hallowed.mono fun s op h => (⟨h.1, 150, h.2⟩ : op.Legal _ _ _ _ s)
  obtain ⟨-, s, hs, hpackaged⟩ := h _ _ _ sampleBody oneCoin _ wf_oneCoin hops
  obtain ⟨-, s₁, hs₁, hok⟩ := poolOk_of_run wf_oneCoin hops
  obtain rfl := Option.some.inj (hs.symm.trans hs₁)
  have hfees : ((step (fun _ => 0) ⟨1, 1, 1, 1, 1⟩ (fun s => s.mapTx.keys.head?) (empty oneCoin)
      (.insertTx (.ofTx parentTx 0 1 10 true))).bind fun s =>
        (s.mapTx.lookup 2).map CTxMemPoolEntry.nFee) = some 10 := by decide +kernel
  rw [hs] at hfees
  obtain ⟨e, he, hfee⟩ := Option.map_eq_some_iff.mp hfees
  rw [hok.sound.graph.packaged_iff.mp hpackaged 2 e he] at hfee
  cases hfee

end CTxMemPool
