/-
# The coins behind the memory pool

`Sound` says, of a pool and of the values of a coins view, that the pool is a graph, that
the view has no coins of a transaction of the pool, and that every input of a transaction
of the pool is an output of another one or is unspent in the view.

Removing transactions with their descendants keeps this.  So does a transaction of a
block, which moves from the pool to the view (`removeBlockTx_sound`): the outputs that it
spends become spent in the view, and whatever else spends them leaves the pool.
-/
import Hub.MemPoolGraph
import Hub.TxValidation

/-! ## Unspent outputs -/

namespace CCoins

theorem isAvailable_iff {c : CCoins} {n : ℕ} :
    c.isAvailable n = true ↔ ∃ o, c.vout[n]? = some o ∧ o.isNull = false := by
  unfold isAvailable
  cases c.vout[n]? with
  | none => simp
  | some o => simp

/-- `Cleanup` drops no unspent output. -/
theorem isAvailable_cleanup {c : CCoins} {n : ℕ} (h : c.isAvailable n = true) :
    c.cleanup.isAvailable n = true := by
  obtain ⟨o, ho, hnull⟩ := isAvailable_iff.mp h
  refine isAvailable_iff.mpr ⟨o, ?_, hnull⟩
  have hsplit := List.rdropWhile_append_rtakeWhile (p := CTxOut.isNull) (l := c.vout)
  rw [← hsplit] at ho
  by_cases hn : n < (c.vout.rdropWhile CTxOut.isNull).length
  · rw [List.getElem?_append_left hn] at ho
    exact ho
  · rw [List.getElem?_append_right (by omega)] at ho
    have htail := List.mem_rtakeWhile_imp (List.mem_of_getElem? ho)
    rw [hnull] at htail
    cases htail

/-- Spending an output leaves the others. -/
theorem isAvailable_spent {c : CCoins} {n m : ℕ} (h : c.isAvailable m = true) (hne : m ≠ n) :
    (c.spent n).isAvailable m = true := by
  refine isAvailable_cleanup ?_
  obtain ⟨o, ho, hnull⟩ := isAvailable_iff.mp h
  refine isAvailable_iff.mpr ⟨o, ?_, hnull⟩
  rw [List.getElem?_set_ne hne.symm]
  exact ho

theorem norm_of_isAvailable {c : CCoins} {n : ℕ} (h : c.isAvailable n = true) :
    norm (some c) = some c := by
  obtain ⟨o, ho, hnull⟩ := isAvailable_iff.mp h
  exact norm_some_of_not_pruned (not_isPruned_of_getElem? ho hnull)

/-- The height does not matter. -/
theorem isAvailable_fromTx (tx : CTransaction) (nHeight nHeight' : Int32) (n : ℕ) :
    (fromTx tx nHeight).isAvailable n = (fromTx tx nHeight').isAvailable n := rfl

/-- An unspent output of new coins is an output of the transaction. -/
theorem exists_of_isAvailable_fromTx {tx : CTransaction} {nHeight : Int32} {n : ℕ}
    (h : (fromTx tx nHeight).isAvailable n = true) :
    ∃ o, tx.vout[n]? = some o ∧ o.isNull = false := by
  obtain ⟨o, ho, hnull⟩ := isAvailable_iff.mp h
  obtain ⟨hlt, rfl⟩ := List.getElem?_eq_some_iff.mp ho
  have hprefix : (fromTx tx nHeight).vout
      <+: tx.vout.map fun o => if o.isUnspendable then CTxOut.null else o :=
    List.rdropWhile_prefix _ _
  have hmap := List.prefix_iff_getElem?.mp hprefix n hlt
  rw [List.getElem?_map] at hmap
  obtain ⟨o, ho, heq⟩ := Option.map_eq_some_iff.mp hmap
  have hnull' : (if o.isUnspendable then CTxOut.null else o).isNull = false := by
    rw [heq]
    exact hnull
  by_cases hu : o.isUnspendable = true
  · rw [if_pos hu] at hnull'
    cases hnull'
  · rw [if_neg hu] at hnull'
    exact ⟨o, ho, hnull'⟩

end CCoins

/-- The output `o` is unspent among the coins `U`. -/
def Unspent (U : Uint256 → Option CCoins) (o : COutPoint) : Prop :=
  ∃ c, U o.hash = some c ∧ c.isAvailable o.n = true

/-- What spending the outputs `ps` does to the coins. -/
structure SpendsAll (U : Uint256 → Option CCoins) (ps : List COutPoint)
    (U' : Uint256 → Option CCoins) : Prop where
  absent : ∀ h, U h = none → U' h = none
  present : ∀ o ∈ ps, U o.hash ≠ none
  keeps : ∀ o, o ∉ ps → Unspent U o → Unspent U' o

theorem SpendsAll.nil (U : Uint256 → Option CCoins) : SpendsAll U [] U :=
  ⟨fun _ h => h, by simp, fun _ _ h => h⟩

theorem SpendsAll.cons {U U₁ U' : Uint256 → Option CCoins} {p : COutPoint}
    {ps : List COutPoint} {u : CTxInUndo} (hp : CCoinsViewCache.Spends U p u U₁)
    (hps : SpendsAll U₁ ps U') : SpendsAll U (p :: ps) U' := by
  obtain ⟨c, o, hc, -, -, -, rfl⟩ := hp
  have habsent : ∀ h, U h = none →
      Function.update U p.hash (CCoins.norm (some (c.spent p.n))) h = none := by
    intro h hh
    have hne : h ≠ p.hash := by
      rintro rfl
      rw [hc] at hh
      cases hh
    rw [Function.update_of_ne hne, hh]
  refine ⟨fun h hh => hps.absent h (habsent h hh), fun q hq => ?_, fun q hq hun => ?_⟩
  · rcases List.mem_cons.mp hq with rfl | hq
    · rw [hc]
      simp
    · exact fun hnone => hps.present q hq (habsent q.hash hnone)
  · rw [List.mem_cons, not_or] at hq
    refine hps.keeps q hq.2 ?_
    obtain ⟨d, hd, hav⟩ := hun
    by_cases hhash : q.hash = p.hash
    · -- another output of the same transaction
      obtain rfl : c = d := by
        rw [hhash, hc] at hd
        exact Option.some.inj hd
      have hn : q.n ≠ p.n := by
        intro hn
        obtain ⟨qh, qn⟩ := q
        obtain ⟨ph, pn⟩ := p
        simp only at hhash hn
        exact hq.1 (by rw [hhash, hn])
      have hav' := CCoins.isAvailable_spent hav hn
      refine ⟨_, ?_, hav'⟩
      rw [hhash, Function.update_self, CCoins.norm_of_isAvailable hav']
    · exact ⟨d, by rw [Function.update_of_ne hhash]; exact hd, hav⟩

theorem spendInputs_spec {usage : CCoins → ℕ} : ∀ {ps : List COutPoint}
    {v v' : CCoinsViewCache} {r : List CCoins × CTxUndo}, v.view.Wf →
    v.spendInputs usage ps = (.ok r, v') →
    SpendsAll v.view.value ps v'.view.value ∧ v'.view.Wf := by
  intro ps
  induction ps with
  | nil =>
    intro v v' r hwf hrun
    rw [CCoinsViewCache.spendInputs] at hrun
    obtain ⟨-, rfl⟩ := Prod.mk.inj hrun
    exact ⟨SpendsAll.nil _, hwf⟩
  | cons p ps ih =>
    intro v v' r hwf hrun
    obtain ⟨coin, u, v₁, inputs, us, hone, hrest, -⟩ :=
      CCoinsViewCache.of_spendInputs_cons hrun
    obtain ⟨hs, hwf₁⟩ := CCoinsViewCache.spendInput_spec hwf hone
    obtain ⟨hall, hwf'⟩ := ih hwf₁ hrest
    exact ⟨SpendsAll.cons hs hall, hwf'⟩

namespace CTxMemPool

variable {usage : CCoins → ℕ} {mu : MemUsage} {s s' t : CTxMemPool}
  {body : Uint256 → CTransaction} {U U' : Uint256 → Option CCoins}

/-! ## A pool over coins -/

/-- The pool is a graph, its transactions are new to the coins `U`, and their inputs are
outputs of the pool or unspent in `U`.  `body` gives the transaction that a hash belongs
to. -/
structure Sound (body : Uint256 → CTransaction) (U : Uint256 → Option CCoins)
    (s : CTxMemPool) : Prop where
  graph : Graph s
  absent : ∀ h tx, s.txAt h = some tx → U h = none
  inputs : ∀ h tx, s.txAt h = some tx → ∀ o ∈ tx.prevouts,
    (∃ tx', s.txAt o.hash = some tx' ∧
      (CCoins.fromTx tx' mempoolHeight).isAvailable o.n = true) ∨ Unspent U o
  body : ∀ h tx, s.txAt h = some tx → body h = tx
  loose : ∀ h tx, s.txAt h = some tx → tx.isCoinBase = false

theorem exists_txAt {x : Uint256} (h : s.hasTx x = true) : ∃ tx, s.txAt x = some tx := by
  rw [hasTx_eq] at h
  exact Option.isSome_iff_exists.mp h

theorem hasTx_of_txAt {x : Uint256} {tx : CTransaction} (h : s.txAt x = some tx) :
    s.hasTx x = true := by
  rw [hasTx_eq, h]
  rfl

/-- Transactions may leave together with what spends from them. -/
theorem Sound.shrinks (h : Sound body U s) (hg : Graph t) (hs : Shrinks s t) :
    Sound body U t where
  graph := hg
  absent x tx hx := h.absent x tx (hs.sub x tx hx)
  inputs x tx hx o ho := by
    rcases h.inputs x tx (hs.sub x tx hx) o ho with ⟨tx', htx', hav⟩ | hun
    · left
      have hp : t.hasTx o.hash = true := hs.parents x o.hash (hasTx_of_txAt hx)
        ⟨tx, hs.sub x tx hx, hasTx_of_txAt htx', o, ho, rfl⟩
      obtain ⟨tx'', htx''⟩ := exists_txAt hp
      obtain rfl : tx' = tx'' := Option.some.inj (htx'.symm.trans (hs.sub _ _ htx''))
      exact ⟨tx', htx'', hav⟩
    · exact .inr hun
  body x tx hx := h.body x tx (hs.sub x tx hx)
  loose x tx hx := h.loose x tx (hs.sub x tx hx)

/-- The coins that belong to the pool are not part of the statement. -/
theorem Sound.withCoins (h : Sound body U s) (view : CCoinsView) :
    Sound body U { s with coins := view } where
  graph := h.graph.of_eq rfl rfl rfl fun _ _ => rfl
  absent := h.absent
  inputs := h.inputs
  body := h.body
  loose := h.loose

/-- The same transactions. -/
theorem Shrinks.of_eq (htx : s'.txAt = s.txAt) (hcoins : s'.coins = s.coins) :
    Shrinks s s' where
  sub x tx hx := by
    rw [htx] at hx
    exact hx
  parents c p _ hcp := by
    rw [hasTx_eq, htx, ← hasTx_eq]
    exact hcp.hasTx_right
  coins := hcoins

/-- A pool without transactions. -/
theorem sound_of_empty (htx : s.mapTx = ∅) (hlinks : s.mapLinks = ∅)
    (hnext : s.mapNextTx = ∅) : Sound body U s := by
  have hnone : ∀ x, s.txAt x = none := by
    intro x
    rw [txAt, htx]
    rfl
  have hedge : ∀ c p, ¬ s.SpendsFrom c p := by
    rintro c p ⟨tx, hc, -⟩
    rw [hnone] at hc
    cases hc
  have hlinks' : ∀ x, s.links x = ⟨[], []⟩ := by
    intro x
    rw [links, hlinks]
    rfl
  have hlookup : ∀ x e, s.mapTx.lookup x ≠ some e := by
    intro x e h
    rw [htx] at h
    cases h
  have htxs : ∀ x tx, s.txAt x ≠ some tx := by
    intro x tx h
    rw [hnone] at h
    cases h
  refine ⟨⟨⟨fun x tx h => absurd h (htxs x tx), fun x tx h => absurd h (htxs x tx),
    fun o p => ?_⟩, fun x => ?_, fun c p => ?_, fun c p => ?_, fun x => ?_, fun x => ?_,
    fun x h => ?_, fun x e h => absurd h (hlookup x e), fun x e h => absurd h (hlookup x e),
    fun x e h => absurd h (hlookup x e)⟩, fun x tx h => absurd h (htxs x tx),
    fun x tx h => absurd h (htxs x tx), fun x tx h => absurd h (htxs x tx),
    fun x tx h => absurd h (htxs x tx)⟩
  · rw [hnext]
    exact ⟨fun h => (by cases h), fun h => absurd h.1 (htxs _ _)⟩
  · rw [hasTx_eq, hnone, hlinks]
    rfl
  · rw [hlinks']
    simp [hedge]
  · rw [hlinks']
    simp [hedge]
  · rw [hlinks']
    exact List.nodup_nil
  · rw [hlinks']
    exact List.nodup_nil
  · obtain ⟨b, hb, -⟩ := Relation.TransGen.head'_iff.mp h
    exact hedge x b hb

/-! ## Insertion -/

/-- Neither the transaction nor another one that spends one of its inputs is in the
pool. -/
def Enters (s : CTxMemPool) (entry : CTxMemPoolEntry) : Prop :=
  s.hasTx entry.tx.hash = false ∧ ∀ o ∈ entry.tx.prevouts, s.mapNextTx.lookup o = none

instance (s : CTxMemPool) (entry : CTxMemPoolEntry) : Decidable (s.Enters entry) :=
  inferInstanceAs (Decidable (_ ∧ _))

variable (usage) (mu) in
/-- An entry that does not enter changes nothing but what is cached. -/
theorem insertTx_of_not_enters (hwf : s.coins.Wf) {entry : CTxMemPoolEntry}
    (h : ¬ s.Enters entry) :
    ∃ r view, s.insertTx usage mu entry = some (r, { s with coins := view }) ∧ view.Wf ∧
      view.value = s.coins.value := by
  unfold insertTx
  by_cases hex : s.hasTx entry.tx.hash = true
  · rw [if_pos hex]
    exact ⟨_, s.coins, rfl, hwf, rfl⟩
  · rw [if_neg hex]
    cases hc : s.checkInputs usage entry.tx.prevouts with
    | mk res s₁ =>
      obtain ⟨⟨view, rfl, hvwf, hval⟩, hok, -⟩ := checkInputs_spec hc
      match res, hok with
      | .error e, _ => exact ⟨_, view, rfl, hvwf hwf, hval⟩
      | .ok false, _ => exact ⟨_, view, rfl, hvwf hwf, hval⟩
      | .ok true, hok => exact absurd ⟨by simpa using hex, hok rfl⟩ h

variable (usage) in
/-- The inputs that `checkTransaction` found are found by `insertTx`. -/
theorem checkInputs_eq_ok : ∀ {ps : List COutPoint} {s : CTxMemPool},
    (∀ o ∈ ps, s.mapNextTx.lookup o = none) →
    (∀ o ∈ ps, (CCoinsViewMemPool.getCoins s o.hash).any (fun c => c.isAvailable o.n) = true) →
    (s.checkInputs usage ps).1 = .ok true := by
  intro ps
  induction ps with
  | nil =>
    intro s _ _
    rfl
  | cons o ps ih =>
    intro s hfree hav
    have hview : ∀ view : CCoinsView, view.value = s.coins.value →
        (CTxMemPool.checkInputs usage { s with coins := view } ps).1 = .ok true := by
      intro view hval
      refine ih (fun q hq => hfree q (by simp [hq])) fun q hq => ?_
      have hq' := hav q (by simp [hq])
      unfold CCoinsViewMemPool.getCoins at hq' ⊢
      rw [← hval] at hq'
      exact hq'
    rw [checkInputs, if_neg (by simp [hfree o (by simp)])]
    simp only
    split
    · exact hview s.coins rfl
    · next hfound =>
      have hval := funext fun t => CCoinsView.value_getCoins usage s.coins o.hash t
      have ho := hav o (by simp)
      unfold CCoinsViewMemPool.getCoins at ho
      rw [if_pos]
      · exact hview _ hval
      · cases htx : s.txAt o.hash with
        | some tx =>
          -- an output of the pool would have been found
          rw [htx] at ho
          obtain ⟨out, hout, hnull⟩ := CCoins.exists_of_isAvailable_fromTx ho
          obtain ⟨e, he, rfl⟩ := Option.map_eq_some_iff.mp htx
          exact absurd (by simp [he, hout, hnull]) hfound
        | none =>
          rw [htx] at ho
          obtain ⟨c, hc, hcav⟩ := (Option.any_eq_true _ _).mp ho
          rw [CCoinsView.getCoins_fst, (Option.filter_eq_some_iff.mp hc).1]
          exact hcav

variable {blockHeight : ℤ}

/-- The hash of an entry that was checked and enters is new to the coins. -/
theorem value_of_checkTransaction {entry : CTxMemPoolEntry}
    (hcheck : TxValidationState.checkTransaction s entry.tx entry.nTime entry.nUsageSize
      blockHeight = .ok entry) (h : s.hasTx entry.tx.hash = false) :
    s.coins.value entry.tx.hash = none := by
  obtain ⟨-, -, hknown, -⟩ := TxValidationState.of_checkTransaction hcheck
  have htx : s.txAt entry.tx.hash = none := by
    rw [hasTx_eq] at h
    simpa using h
  unfold CCoinsViewMemPool.haveCoins CCoinsViewMemPool.getCoins at hknown
  rw [htx] at hknown
  cases hv : s.coins.value entry.tx.hash with
  | none => rfl
  | some c =>
    -- coins with a value have an output
    have hnp : ¬ c.isPruned = true := by
      have := (Option.filter_eq_some_iff.mp hv).2
      simpa using this
    rw [hv] at hknown
    refine absurd ?_ hnp
    have hnil : c.vout = [] := by simpa using hknown
    rw [CCoins.isPruned, hnil]
    rfl

/-- An entry that was checked and enters can be added if nothing in the pool spends from it. -/
theorem addable_of_childless {entry : CTxMemPoolEntry}
    (hcheck : TxValidationState.checkTransaction s entry.tx entry.nTime entry.nUsageSize
      blockHeight = .ok entry) (h : s.Enters entry)
    (hchildless : ∀ c tx, s.txAt c = some tx → ∀ o ∈ tx.prevouts, o.hash ≠ entry.tx.hash) :
    Addable s entry := by
  obtain ⟨hchecked, hloose, -, hinputs, nFee, spends, hentry⟩ :=
    TxValidationState.of_checkTransaction hcheck
  have hnew := value_of_checkTransaction hcheck h.1
  have htx : s.txAt entry.tx.hash = none := by
    have hnone := h.1
    rw [hasTx_eq] at hnone
    simpa using hnone
  have hspends : ∀ o ∈ entry.tx.prevouts, o.hash ≠ entry.tx.hash := by
    intro o ho hhash
    rw [CCoinsViewMemPool.haveInputs, hloose, Bool.false_or, List.all_eq_true] at hinputs
    have hav := hinputs o ho
    rw [hhash, CCoinsViewMemPool.getCoins, htx, hnew] at hav
    cases hav
  have hsize : 0 < entry.tx.serializeSize := by
    rw [CTransaction.serializeSize]
    exact Nat.succ_pos (_ + 3)
  refine ⟨h.1, (Validation.of_checkTransaction hchecked).2, h.2, hspends, hchildless,
    ?_, ?_, ?_, ?_, ?_⟩
  · rw [hentry]
    rfl
  · rw [hentry]
    rfl
  · rw [hentry]
    rfl
  · rw [hentry]
    rfl
  · rw [hentry]
    exact hsize

variable (usage) (mu) in
/-- **`insertTx`** of an entry that was checked and can be added. -/
theorem insertTx_of_addable (hwf : s.coins.Wf) (hs : Graph s) {entry : CTxMemPoolEntry}
    (hcheck : TxValidationState.checkTransaction s entry.tx entry.nTime entry.nUsageSize
      blockHeight = .ok entry) (hadd : Addable s entry) :
    ∃ s', s.insertTx usage mu entry = some (.ok true, s') ∧ s'.coins.Wf ∧
      s'.coins.value = s.coins.value ∧ Graph s' ∧
      ∀ x, s'.coreAt x = if x = entry.tx.hash then
        some (entry.withDelta ((s.mapDeltas.lookup entry.tx.hash).getD 0)).core
        else s.coreAt x := by
  obtain ⟨-, hloose, -, hinputs, -⟩ := TxValidationState.of_checkTransaction hcheck
  rw [CCoinsViewMemPool.haveInputs, hloose, Bool.false_or, List.all_eq_true] at hinputs
  have hok := checkInputs_eq_ok usage hadd.free hinputs
  cases hc : s.checkInputs usage entry.tx.prevouts with
  | mk res s₁ =>
    rw [hc] at hok
    simp only at hok
    obtain ⟨⟨view, rfl, hvwf, hval⟩, -, -⟩ := checkInputs_spec hc
    subst hok
    have hs₁ : Graph { s with coins := view } := hs.of_eq rfl rfl rfl fun _ _ => rfl
    have hadd₁ : Addable { s with coins := view } entry :=
      ⟨hadd.absent, hadd.nodup, hadd.free, hadd.not_self, hadd.childless, hadd.count, hadd.size,
        hadd.fees, hadd.feeDelta, hadd.size_pos⟩
    obtain ⟨A, hA, hAnd, hAmem⟩ := ancestors_of_new hs₁ entry
    obtain ⟨s₂, h₂, hg₂⟩ := addUnchecked_graph mu hs₁ hadd₁ hAnd hAmem
    obtain ⟨hcore, -, -, hcoins⟩ := addUnchecked_frame h₂
    refine ⟨s₂, ?_, ?_, ?_, hg₂, hcore⟩
    · simp only [insertTx, hadd.absent, Bool.false_eq_true, if_false, hc, hA, h₂,
        Option.bind_eq_bind, Option.bind_some]
    · rw [hcoins]
      exact hvwf hwf
    · rw [hcoins]
      exact hval

/-- The inputs of a transaction that was checked are outputs of the pool or unspent. -/
theorem backed_of_checkTransaction {tx : CTransaction} {nTime : ℤ} {nUsageSize : ℕ}
    {entry : CTxMemPoolEntry}
    (hcheck : TxValidationState.checkTransaction s tx nTime nUsageSize blockHeight = .ok entry)
    {o : COutPoint} (ho : o ∈ tx.prevouts) :
    (∃ tx', s.txAt o.hash = some tx' ∧
      (CCoins.fromTx tx' mempoolHeight).isAvailable o.n = true) ∨ Unspent s.coins.value o := by
  obtain ⟨-, hloose, -, hinputs, -⟩ := TxValidationState.of_checkTransaction hcheck
  rw [CCoinsViewMemPool.haveInputs, hloose, Bool.false_or, List.all_eq_true] at hinputs
  have hav := hinputs o ho
  unfold CCoinsViewMemPool.getCoins at hav
  cases hp : s.txAt o.hash with
  | some tx' =>
    rw [hp] at hav
    exact .inl ⟨tx', rfl, hav⟩
  | none =>
    rw [hp] at hav
    exact .inr ((Option.any_eq_true _ _).mp hav)

/-- An entry that was checked and enters can be added. -/
theorem Sound.addable (hs : Sound body s.coins.value s) {entry : CTxMemPoolEntry}
    (hcheck : TxValidationState.checkTransaction s entry.tx entry.nTime entry.nUsageSize
      blockHeight = .ok entry) (h : s.Enters entry) :
    Addable s entry ∧ s.coins.value entry.tx.hash = none := by
  have hnew := value_of_checkTransaction hcheck h.1
  refine ⟨addable_of_childless hcheck h fun c tx hc o ho hhash => ?_, hnew⟩
  rcases hs.inputs c tx hc o ho with ⟨tx', htx', -⟩ | ⟨d, hd, -⟩
  · rw [hhash] at htx'
    have hin := hasTx_of_txAt htx'
    rw [h.1] at hin
    cases hin
  · rw [hhash, hnew] at hd
    cases hd

variable (usage) (mu) in
/-- **`insertTx`** of an entry that was checked and enters. -/
theorem insertTx_of_enters (hwf : s.coins.Wf) (hs : Sound body s.coins.value s)
    {entry : CTxMemPoolEntry}
    (hcheck : TxValidationState.checkTransaction s entry.tx entry.nTime entry.nUsageSize
      blockHeight = .ok entry) (hbody : body entry.tx.hash = entry.tx) (h : s.Enters entry) :
    ∃ s', s.insertTx usage mu entry = some (.ok true, s') ∧ s'.coins.Wf ∧
      Sound body s'.coins.value s' ∧
      ∀ x, s'.coreAt x = if x = entry.tx.hash then
        some (entry.withDelta ((s.mapDeltas.lookup entry.tx.hash).getD 0)).core
        else s.coreAt x := by
  obtain ⟨hadd, hnew⟩ := hs.addable hcheck h
  obtain ⟨-, hloose, -⟩ := TxValidationState.of_checkTransaction hcheck
  obtain ⟨s₂, h₂, hwf₂, hvalue, hg₂, hcore⟩ :=
    insertTx_of_addable usage mu hwf hs.graph hcheck hadd
  have htx : TxAdded s entry.tx s₂ := txAdded_of_core hcore
  -- what was in the pool is still there
  have hkeep : ∀ x tx, s.txAt x = some tx → s₂.txAt x = some tx := by
    intro x tx hx
    rw [htx, if_neg, hx]
    rintro rfl
    have hhas := hasTx_of_txAt hx
    rw [h.1] at hhas
    cases hhas
  refine ⟨s₂, h₂, hwf₂, ⟨hg₂, ?_, ?_, ?_, ?_⟩, hcore⟩
  · intro x tx hx
    rw [hvalue]
    rcases htx.cases hx with ⟨rfl, -⟩ | ⟨-, hx⟩
    · exact hnew
    · exact hs.absent x tx hx
  · intro x tx hx o ho
    rw [hvalue]
    have hback : (∃ tx', s.txAt o.hash = some tx' ∧
        (CCoins.fromTx tx' mempoolHeight).isAvailable o.n = true) ∨
        Unspent s.coins.value o := by
      rcases htx.cases hx with ⟨-, rfl⟩ | ⟨-, hx⟩
      · exact backed_of_checkTransaction hcheck ho
      · exact hs.inputs x tx hx o ho
    exact hback.imp_left fun ⟨tx', htx', hav⟩ => ⟨tx', hkeep _ _ htx', hav⟩
  · intro x tx hx
    rcases htx.cases hx with ⟨rfl, rfl⟩ | ⟨-, hx⟩
    · exact hbody
    · exact hs.body x tx hx
  · intro x tx hx
    rcases htx.cases hx with ⟨rfl, rfl⟩ | ⟨-, hx⟩
    · exact hloose
    · exact hs.loose x tx hx

/-! ## Conflicts -/

variable (mu) in
/-- One outpoint: whatever else spends it leaves the pool. -/
theorem removeConflict_graph (hs : Graph s) (tx : CTransaction) (acc : List CTransaction)
    (o : COutPoint) :
    ∃ acc' v, removeConflict mu tx (acc, s) o = some (acc', v) ∧ Graph v ∧ Shrinks s v ∧
      ∀ c tx', v.txAt c = some tx' → o ∈ tx'.prevouts → c = tx.hash := by
  unfold removeConflict
  cases hl : s.mapNextTx.lookup o with
  | none =>
    refine ⟨acc, s, rfl, hs, Shrinks.refl s, fun c tx' hc ho => ?_⟩
    obtain ⟨i, hi⟩ := hs.next.spender hc ho
    rw [hl] at hi
    cases hi
  | some p =>
    -- the transaction of the pool that spends the outpoint is `p.ptx`
    have hspender : ∀ c tx', s.txAt c = some tx' → o ∈ tx'.prevouts → c = p.ptx.hash := by
      intro c tx' hc ho
      obtain ⟨i, hi⟩ := hs.next.spender hc ho
      rw [hl] at hi
      obtain rfl := Option.some.inj hi
      exact (hs.next.hash c tx' hc).symm
    by_cases hp : p.ptx.hash = tx.hash
    · simp only [if_pos hp]
      exact ⟨acc, s, rfl, hs, Shrinks.refl s, fun c tx' hc ho => (hspender c tx' hc ho).trans hp⟩
    · obtain ⟨removed, v, hv, hg, hsh, -, hgone⟩ := remove_graph mu hs p.ptx
      simp only [if_neg hp, hv]
      refine ⟨acc ++ removed, v.clearPrioritisation p.ptx.hash, rfl, hg.clearPrioritisation hgone,
        hsh.trans (Shrinks.of_eq rfl rfl), fun c tx' hc ho => ?_⟩
      have hcv : v.txAt c = some tx' := hc
      obtain rfl := hspender c tx' (hsh.sub c tx' hcv) ho
      rw [hasTx_of_txAt hcv] at hgone
      cases hgone

variable (mu) in
/-- **`removeConflicts`.** -/
theorem removeConflicts_graph (hs : Graph s) (tx : CTransaction) :
    ∃ conflicts v, s.removeConflicts mu tx = some (conflicts, v) ∧ Graph v ∧ Shrinks s v ∧
      ∀ o ∈ tx.prevouts, ∀ c tx', v.txAt c = some tx' → o ∈ tx'.prevouts → c = tx.hash := by
  unfold removeConflicts
  have hloop : ∀ (ps : List COutPoint) (acc : List CTransaction) {s : CTxMemPool}, Graph s →
      ∃ acc' v, ps.foldlM (removeConflict mu tx) (acc, s) = some (acc', v) ∧ Graph v ∧
        Shrinks s v ∧
        ∀ o ∈ ps, ∀ c tx', v.txAt c = some tx' → o ∈ tx'.prevouts → c = tx.hash := by
    intro ps
    induction ps with
    | nil =>
      intro acc s hs
      exact ⟨acc, s, rfl, hs, Shrinks.refl s, by simp⟩
    | cons o ps ih =>
      intro acc s hs
      obtain ⟨acc₁, v₁, h₁, hg₁, hsh₁, hfree₁⟩ := removeConflict_graph mu hs tx acc o
      obtain ⟨acc₂, v₂, h₂, hg₂, hsh₂, hfree₂⟩ := ih acc₁ hg₁
      refine ⟨acc₂, v₂, ?_, hg₂, hsh₁.trans hsh₂, fun o' ho' c tx' hc hin => ?_⟩
      · rw [List.foldlM_cons, h₁]
        exact h₂
      · rcases List.mem_cons.mp ho' with rfl | ho'
        · exact hfree₁ c tx' (hsh₂.sub c tx' hc) hin
        · exact hfree₂ o' ho' c tx' hc hin
  exact hloop tx.prevouts [] hs

/-! ## Blocks -/

variable (mu) in
/-- **A transaction of a block.**  It spends the outputs `ps`, which are its inputs unless
it is the coinbase, and its own outputs become coins. -/
theorem removeBlockTx_sound (hs : Sound body U s) {tx : CTransaction}
    (hbody : body tx.hash = tx) {ps : List COutPoint} (hps : ps = tx.prevouts ∨
      (ps = [] ∧ tx.isCoinBase = true)) (hspend : SpendsAll U ps U')
    (hnew : U' tx.hash = none) (nHeight : Int32) (acc : List CTransaction) :
    ∃ acc' v, removeBlockTx mu (acc, s) tx = some (acc', v) ∧ v.coins = s.coins ∧
      Sound body
        (Function.update U' tx.hash (CCoins.norm (some (CCoins.fromTx tx nHeight)))) v := by
  -- a transaction of the pool that is in the block is no coinbase
  have hin : ∀ tx', s.txAt tx.hash = some tx' → tx' = tx ∧ ps = tx.prevouts := by
    intro tx' htx'
    obtain rfl : tx = tx' := hbody.symm.trans (hs.body _ _ htx')
    refine ⟨rfl, hps.resolve_right fun h => ?_⟩
    rw [hs.loose _ _ htx'] at h
    cases h.2
  have hroot : ∀ p, ¬ s.SpendsFrom tx.hash p := by
    rintro p ⟨tx', htx', hp, o, ho, rfl⟩
    obtain ⟨rfl, rfl⟩ := hin tx' htx'
    obtain ⟨tx'', htx''⟩ := exists_txAt hp
    exact hspend.present o ho (hs.absent _ _ htx'')
  obtain ⟨removed, v₁, h₁, hg₁, -, hcoins₁, htx₁⟩ := remove_single_graph mu hs.graph hroot
  obtain ⟨conflicts, v₂, h₂, hg₂, hsh, hfree⟩ := removeConflicts_graph mu hg₁ tx
  have hsub : ∀ x tx', v₂.txAt x = some tx' → x ≠ tx.hash ∧ s.txAt x = some tx' := by
    intro x tx' hx
    have hx₁ := hsh.sub x tx' hx
    rw [htx₁] at hx₁
    by_cases hxt : x = tx.hash
    · rw [if_pos hxt] at hx₁
      cases hx₁
    · rw [if_neg hxt] at hx₁
      exact ⟨hxt, hx₁⟩
  have hgone : v₂.hasTx tx.hash = false := by
    rw [Bool.eq_false_iff]
    intro h
    obtain ⟨tx', htx'⟩ := exists_txAt h
    exact (hsub _ _ htx').1 rfl
  refine ⟨acc ++ conflicts, v₂.clearPrioritisation tx.hash, ?_, hsh.coins.trans hcoins₁,
    hg₂.clearPrioritisation hgone, ?_, ?_, ?_, ?_⟩
  · simp only [removeBlockTx, h₁, h₂, Option.bind_eq_bind, Option.bind_some]
  · intro x tx' hx
    obtain ⟨hne, hx⟩ := hsub x tx' hx
    rw [Function.update_of_ne hne]
    exact hspend.absent x (hs.absent x tx' hx)
  · intro x tx' hx o ho
    have hx₂ : v₂.txAt x = some tx' := hx
    obtain ⟨hne, hxs⟩ := hsub x tx' hx₂
    rcases hs.inputs x tx' hxs o ho with ⟨tx'', htx'', hav⟩ | hun
    · by_cases hot : o.hash = tx.hash
      · -- the output moves from the pool to the coins
        rw [hot] at htx''
        obtain ⟨rfl, -⟩ := hin tx'' htx''
        rw [CCoins.isAvailable_fromTx _ _ nHeight] at hav
        exact .inr ⟨_, by rw [hot, Function.update_self, CCoins.norm_of_isAvailable hav], hav⟩
      · left
        have hp₁ : v₁.txAt o.hash = some tx'' := by rw [htx₁, if_neg hot, htx'']
        have hx₁ := hsh.sub x tx' hx₂
        obtain ⟨tx₃, htx₃⟩ := exists_txAt (hsh.parents x o.hash (hasTx_of_txAt hx₂)
          ⟨tx', hx₁, hasTx_of_txAt hp₁, o, ho, rfl⟩)
        obtain rfl : tx'' = tx₃ := Option.some.inj (hp₁.symm.trans (hsh.sub _ _ htx₃))
        exact ⟨tx'', htx₃, hav⟩
    · right
      -- the transaction would be a conflict if it spent one of the outputs `ps`
      have hops : o ∉ ps := by
        intro hop
        rcases hps with rfl | ⟨rfl, -⟩
        · exact hne (hfree o hop x tx' hx₂ ho)
        · cases hop
      obtain ⟨c, hc, hav⟩ := hspend.keeps o hops hun
      have hot : o.hash ≠ tx.hash := by
        intro hot
        rw [hot, hnew] at hc
        cases hc
      exact ⟨c, by rw [Function.update_of_ne hot]; exact hc, hav⟩
  · intro x tx' hx
    exact hs.body x tx' (hsub x tx' hx).2
  · intro x tx' hx
    exact hs.loose x tx' (hsub x tx' hx).2

variable (mu) in
/-- The transactions behind the coinbase. -/
theorem removeBlockTxs_sound {nHeight : Int32} : ∀ {txs : List CTransaction}
    {v v' : CCoinsViewCache} {r : List (List CCoins) × CBlockUndo} {s : CTxMemPool}
    (acc : List CTransaction), v.view.Wf → Sound body v.view.value s →
    (∀ tx ∈ txs, body tx.hash = tx) →
    v.processTransactions usage nHeight .checkDuplicateTxId txs = (.ok r, v') →
    ∃ acc' s', txs.foldlM (removeBlockTx mu) (acc, s) = some (acc', s') ∧
      s'.coins = s.coins ∧ v'.view.Wf ∧ Sound body v'.view.value s' := by
  intro txs
  induction txs with
  | nil =>
    intro v v' r s acc hwf hs _ hrun
    rw [CCoinsViewCache.processTransactions] at hrun
    obtain ⟨-, rfl⟩ := Prod.mk.inj hrun
    exact ⟨acc, s, rfl, rfl, hwf, hs⟩
  | cons tx txs ih =>
    intro v v' r s acc hwf hs hbody hrun
    obtain ⟨inputs, us, v₁, v₂, answer, undo, hspend, hcreate, hrest, -⟩ :=
      CCoinsViewCache.of_processTransactions_cons hrun
    obtain ⟨hall, hwf₁⟩ := spendInputs_spec hwf hspend
    obtain ⟨hnone, hwf₂, hval₂⟩ := CCoinsViewCache.createCoins_spec hwf₁ hcreate
    obtain ⟨acc₁, s₁, h₁, hcoins₁, hs₁⟩ := removeBlockTx_sound mu hs
      (hbody tx (by simp)) (.inl rfl) hall hnone nHeight acc
    rw [← hval₂] at hs₁
    obtain ⟨acc₂, s₂, h₂, hcoins₂, hwf', hs₂⟩ :=
      ih acc₁ hwf₂ hs₁ (fun tx' h => hbody tx' (by simp [h])) hrest
    refine ⟨acc₂, s₂, ?_, hcoins₂.trans hcoins₁, hwf', hs₂⟩
    rw [List.foldlM_cons, h₁]
    exact h₂

variable (usage) (mu) in
/-- **A block** that `processBlock` accepts. -/
theorem connectBlock_sound (hwf : s.coins.Wf) (hs : Sound body s.coins.value s)
    {vtx : List CTransaction} {nHeight : Int32} (hashBlock : Uint256)
    (hcoinbase : ∀ tx, vtx.head? = some tx → tx.isCoinBase = true)
    (hbody : ∀ tx ∈ vtx, body tx.hash = tx)
    (hok : ((CCoinsViewCache.create s.coins).processBlock usage vtx nHeight
      .checkDuplicateTxId).1.isOk = true) :
    ∃ conflicts s', s.connectBlock usage mu vtx nHeight hashBlock = some (conflicts, s') ∧
      s'.coins.Wf ∧ Sound body s'.coins.value s' := by
  have hwf₀ : (CCoinsViewCache.create s.coins).view.Wf :=
    ⟨hwf, fun t e h => (by cases h)⟩
  have hval₀ : (CCoinsViewCache.create s.coins).view.value = s.coins.value := by
    funext t
    exact CCoinsView.value_cache_of_none (AList.lookup_empty t)
  rw [← hval₀] at hs
  -- the loop of `removeForBlock` follows the loop of `processBlock`
  have hloop : ∀ {r v'}, (CCoinsViewCache.create s.coins).processBlock usage vtx nHeight
      .checkDuplicateTxId = (.ok r, v') →
      ∃ conflicts s', vtx.foldlM (removeBlockTx mu) ([], s) = some (conflicts, s') ∧
        v'.view.Wf ∧ Sound body v'.view.value s' := by
    intro r v' hrun
    cases vtx with
    | nil =>
      rw [CCoinsViewCache.processBlock] at hrun
      obtain ⟨-, rfl⟩ := Prod.mk.inj hrun
      exact ⟨[], s, rfl, hwf₀, hs⟩
    | cons coinbase txs =>
      obtain ⟨v₁, answer, hcreate, htxs, -⟩ := CCoinsViewCache.of_processBlock_cons hrun
      obtain ⟨hnone, hwf₁, hval₁⟩ := CCoinsViewCache.createCoins_spec hwf₀ hcreate
      obtain ⟨acc₁, s₁, h₁, -, hs₁⟩ := removeBlockTx_sound mu hs
        (hbody coinbase (by simp)) (.inr ⟨rfl, hcoinbase coinbase rfl⟩) (SpendsAll.nil _) hnone
        nHeight []
      rw [← hval₁] at hs₁
      obtain ⟨acc₂, s₂, h₂, -, hwf', hs₂⟩ := removeBlockTxs_sound mu acc₁ hwf₁ hs₁
        (fun tx h => hbody tx (by simp [h])) htxs
      refine ⟨acc₂, s₂, ?_, hwf', hs₂⟩
      rw [List.foldlM_cons, h₁]
      exact h₂
  unfold connectBlock
  cases hrun : (CCoinsViewCache.create s.coins).processBlock usage vtx nHeight
      .checkDuplicateTxId with
  | mk r cursor =>
    rw [hrun] at hok
    cases r with
    | error e => cases hok
    | ok r =>
      obtain ⟨conflicts, s₁, h₁, hwf₁, hs₁⟩ := hloop hrun
      have hwf₂ : (cursor.setBestBlock hashBlock).view.Wf := hwf₁
      have hval₂ : (cursor.setBestBlock hashBlock).view.value = cursor.view.value := rfl
      obtain ⟨hflush, -, hbase, -⟩ := CCoinsViewCache.flush_spec usage hwf₂
      rw [hval₂] at hbase
      refine ⟨conflicts, { s₁ with coins := ((cursor.setBestBlock hashBlock).flush usage).base },
        ?_, hflush.1, ?_⟩
      · simp only [removeForBlock, h₁, Option.bind_eq_bind, Option.bind_some]
      · simp only [hbase]
        exact hs₁.withCoins _

/-! ## Expiry, trimming and reorganisations -/

variable (mu) in
/-- **`Expire`.** -/
theorem expire_graph (hs : Graph s) (time : ℤ) :
    ∃ n v, s.expire mu time = some (n, v) ∧ Graph v ∧ Shrinks s v := by
  have hin : ∀ x ∈ (s.mapTx.entries.filter fun it => it.2.nTime < time).map Sigma.fst,
      s.hasTx x = true := by
    intro x hx
    obtain ⟨it, hit, rfl⟩ := List.mem_map.mp hx
    rw [hasTx, AList.lookup_isSome, AList.mem_keys]
    exact List.mem_map.mpr ⟨it, List.mem_of_mem_filter hit, rfl⟩
  obtain ⟨R, v, hR, hv, hg, hrem, hclosed, -, -⟩ := removeDescendants_graph mu hs hin
  refine ⟨R.length, v, ?_, hg, hrem.shrinks hclosed⟩
  simp only [expire, hR, hv, Option.bind_eq_bind, Option.bind_some]

/-- An entry whose descendants can be computed is in the pool. -/
theorem hasTx_of_calculateDescendants (hk : LinkKeys s) {it : Uint256} {stage : SetEntries}
    (h : s.calculateDescendants [] it = some stage) : s.hasTx it = true := by
  unfold calculateDescendants at h
  rw [if_neg (by simp)] at h
  cases hfuel : s.mapTx.keys.length with
  | zero =>
    rw [hfuel] at h
    cases h
  | succ fuel =>
    rw [hfuel, Worklist.run] at h
    obtain ⟨cs, hcs, -⟩ := Option.bind_eq_some_iff.mp h
    obtain ⟨l, hl, -⟩ := Option.map_eq_some_iff.mp hcs
    rw [← hk, hl]
    rfl

/-- **`TrimToSize`**, if it does not fail. -/
theorem trim_graph {lowest : CTxMemPool → Option Uint256} {sizelimit : ℕ} :
    ∀ {fuel : ℕ} {l : List Uint256} {s : CTxMemPool} {r : List Uint256 × CTxMemPool},
    Graph s → trim mu lowest sizelimit fuel l s = some r → Graph r.2 ∧ Shrinks s r.2 := by
  intro fuel
  induction fuel with
  | zero =>
    intro l s r hs hr
    rw [trim] at hr
    split at hr
    · cases hr
    · obtain rfl := Option.some.inj hr
      exact ⟨hs, Shrinks.refl s⟩
  | succ fuel ih =>
    intro l s r hs hr
    rw [trim] at hr
    split at hr
    · simp only [Option.bind_eq_bind, Option.bind_eq_some_iff] at hr
      obtain ⟨it, -, stage, hstage, txn, -, s₁, h₁, hr⟩ := hr
      have hit : ∀ x ∈ [it], s.hasTx x = true := by
        intro x hx
        obtain rfl := List.mem_singleton.mp hx
        exact hasTx_of_calculateDescendants hs.keys hstage
      obtain ⟨R, v, hR, hv, hg, hrem, hclosed, -, -⟩ := removeDescendants_graph mu hs hit
      rw [List.foldlM_cons, hstage] at hR
      obtain rfl := Option.some.inj hR
      obtain rfl := Option.some.inj (hv.symm.trans h₁)
      obtain ⟨hg', hsh⟩ := ih hg hr
      exact ⟨hg', (hrem.shrinks hclosed).trans hsh⟩
    · obtain rfl := Option.some.inj hr
      exact ⟨hs, Shrinks.refl s⟩

variable (usage) in
/-- Looking for immature coins changes only what is cached. -/
theorem spendsImmature_view (s : CTxMemPool) (nMemPoolHeight : ℤ) : ∀ (ps : List COutPoint)
    {view : CCoinsView}, view.Wf →
    (s.spendsImmature usage nMemPoolHeight ps view).2.Wf ∧
      (s.spendsImmature usage nMemPoolHeight ps view).2.value = view.value := by
  intro ps
  induction ps with
  | nil =>
    intro view hwf
    exact ⟨hwf, rfl⟩
  | cons o ps ih =>
    intro view hwf
    have hwf₁ := hwf.getCoins usage o.hash
    have hval₁ := funext fun t => CCoinsView.value_getCoins usage view o.hash t
    rw [spendsImmature]
    split
    · exact ih hwf
    · cases hget : view.getCoins usage o.hash with
      | mk c view₁ =>
        rw [hget] at hwf₁ hval₁
        cases c with
        | none => exact ⟨hwf₁, hval₁⟩
        | some coins =>
          simp only
          split
          · exact ⟨hwf₁, hval₁⟩
          · obtain ⟨hwf₂, hval₂⟩ := ih hwf₁
            exact ⟨hwf₂, hval₂.trans hval₁⟩

variable (usage) in
theorem reorgRemovals_view (s : CTxMemPool) (nMemPoolHeight : ℤ) (final : CTransaction → Bool) :
    ∀ (es : List CTxMemPoolEntry) {view : CCoinsView}, view.Wf →
    (s.reorgRemovals usage nMemPoolHeight final es view).2.Wf ∧
      (s.reorgRemovals usage nMemPoolHeight final es view).2.value = view.value := by
  intro es
  induction es with
  | nil =>
    intro view hwf
    exact ⟨hwf, rfl⟩
  | cons e es ih =>
    intro view hwf
    rw [reorgRemovals]
    split
    · exact ih hwf
    · split
      · obtain ⟨hwf₁, hval₁⟩ := s.spendsImmature_view usage nMemPoolHeight
          e.tx.prevouts hwf
        obtain ⟨hwf₂, hval₂⟩ := ih hwf₁
        exact ⟨hwf₂, hval₂.trans hval₁⟩
      · exact ih hwf

variable (mu) in
/-- Recursive removals, one after the other. -/
theorem removes_graph (hs : Graph s) (txs : List CTransaction) :
    ∃ v, txs.foldlM (fun s tx => (s.remove mu tx true).map Prod.snd) s = some v ∧ Graph v ∧
      Shrinks s v := by
  refine Runs.foldlM_total (P := fun v => Graph v ∧ Shrinks s v) (fun t tx _ ht => ?_)
    ⟨hs, Shrinks.refl s⟩
  obtain ⟨removed, v, hv, hg, hsh, -, -⟩ := remove_graph mu ht.1 tx
  exact ⟨v, by rw [hv]; rfl, hg, ht.2.trans hsh⟩

end CTxMemPool
