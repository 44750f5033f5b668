/-
# Connecting and disconnecting a block

`CCoinsViewCache::processBlock` (`libs/server/coins.cpp`) takes the coins that the
transactions of a block spend out of a view, puts in the coins that they make, and
collects undo data.  The undo loop of `ValidationEnginePrivate::disconnectTip` and
`applyTxInUndo` (`libs/server/validation/BlockValidation.cpp`) go back, from the last
transaction to the first.

The undo data of a spent output has the height, version and kind of the transaction only
if the output was the last unspent one.  `undo_processBlock` says that this is enough:
undoing a block restores the value of every transaction.
-/
import Hub.CoinsView
import Mathlib.Data.Option.Basic

/-! ## The code -/

/-- `CTxInUndo`. -/
structure CTxInUndo where
  txout : CTxOut
  fCoinBase : Bool
  nHeight : UInt32
  nVersion : Int32
  deriving DecidableEq

/-- `CTxUndo`: the undo data of the inputs of a transaction. -/
abbrev CTxUndo := List CTxInUndo

/-- `CBlockUndo`: the undo data of all transactions but the coinbase. -/
abbrev CBlockUndo := List CTxUndo

/-- `CCoinsViewCache::ProcessBlockCheck`. -/
inductive ProcessBlockCheck where
  | checkDuplicateTxId
  | skipDuplicateTxIdCheck
  deriving DecidableEq

namespace CCoinsViewCache

variable (usage : CCoins → ℕ)

/-- The undo data of an output `txout` after which the coins `coins` are left. -/
def undoFor (txout : CTxOut) (coins : CCoins) : CTxInUndo :=
  if coins.vout = [] then ⟨txout, coins.fCoinBase, coins.nHeight.toUInt32, coins.nVersion⟩
  else ⟨txout, false, 0, 0⟩

/-- The body of the loop over the inputs in `processBlock`: the coins that the input
refers to, and the undo data. -/
def spendInput (v : CCoinsViewCache) (prevout : COutPoint) :
    Except String (CCoins × CTxInUndo) × CCoinsViewCache :=
  match v.accessCoins usage prevout.hash with
  | (none, v) => (.error "bad-txns-inputs-missingorspent", v)
  | (some coin, v) =>
      match coin.vout[prevout.n]? with
      | none => (.error "bad-txns-inputs-missingorspent", v)
      | some txout =>
          if txout.isNull then (.error "bad-txns-inputs-missingorspent", v)
          else
            v.modifyCoins usage prevout.hash fun modifyCoin =>
              match modifyCoin.spend prevout.n with
              | none => (.error "bad-txns-inputs-missingorspent", modifyCoin)
              | some modifyCoin => (.ok (coin, undoFor txout modifyCoin), modifyCoin)

/-- The loop over the inputs in `processBlock`. -/
def spendInputs (v : CCoinsViewCache) :
    List COutPoint → Except String (List CCoins × CTxUndo) × CCoinsViewCache
  | [] => (.ok ([], []), v)
  | prevout :: prevouts =>
      match v.spendInput usage prevout with
      | (.error e, v) => (.error e, v)
      | (.ok (coin, undo), v) =>
          match v.spendInputs prevouts with
          | (.error e, v) => (.error e, v)
          | (.ok (inputs, undos), v) => (.ok (coin :: inputs, undo :: undos), v)

/-- The part of `processBlock` that makes the new coins of a transaction. -/
def createCoins (v : CCoinsViewCache) (tx : CTransaction) (blockHeight : Int32)
    (check : ProcessBlockCheck) : Except String Unit × CCoinsViewCache :=
  v.modifyCoins usage tx.hash fun modifyCoin =>
    if check = .checkDuplicateTxId ∧ ¬ modifyCoin.isPruned then
      (.error "bad-txns-BIP30", modifyCoin)
    else (.ok (), CCoins.fromTx tx blockHeight)

/-- The loop of `processBlock` over the transactions behind the coinbase. -/
def processTransactions (v : CCoinsViewCache) (blockHeight : Int32) (check : ProcessBlockCheck) :
    List CTransaction → Except String (List (List CCoins) × CBlockUndo) × CCoinsViewCache
  | [] => (.ok ([], []), v)
  | tx :: txs =>
      match v.spendInputs usage tx.prevouts with
      | (.error e, v) => (.error e, v)
      | (.ok (inputs, txundo), v) =>
          match v.createCoins usage tx blockHeight check with
          | (.error e, v) => (.error e, v)
          | (.ok _, v) =>
              match v.processTransactions blockHeight check txs with
              | (.error e, v) => (.error e, v)
              | (.ok (answer, undo), v) => (.ok (inputs :: answer, txundo :: undo), v)

/-- `CCoinsViewCache::processBlock`. -/
def processBlock (v : CCoinsViewCache) (block : List CTransaction) (blockHeight : Int32)
    (check : ProcessBlockCheck) :
    Except String (List (List CCoins) × CBlockUndo) × CCoinsViewCache :=
  match block with
  | [] => (.ok ([], []), v)
  | coinbase :: txs =>
      match v.createCoins usage coinbase blockHeight check with
      | (.error e, v) => (.error e, v)
      | (.ok _, v) =>
          match v.processTransactions usage blockHeight check txs with
          | (.error e, v) => (.error e, v)
          | (.ok (answer, undo), v) => (.ok ([] :: answer, undo), v)

/-- The edit of `applyTxInUndo`, and whether it was clean. -/
def undoSpend (undo : CTxInUndo) (n : ℕ) (coins : CCoins) : Bool × CCoins :=
  let (clean, coins) :=
    if undo.nHeight ≠ 0 then
      (coins.isPruned, ⟨undo.fCoinBase, [], undo.nHeight.toInt32, undo.nVersion⟩)
    else (!coins.isPruned, coins)
  let vout := coins.vout ++ List.replicate (n + 1 - coins.vout.length) CTxOut.null
  (clean && !coins.isAvailable n, { coins with vout := vout.set n undo.txout })

/-- `applyTxInUndo`. -/
def applyTxInUndo (v : CCoinsViewCache) (undo : CTxInUndo) (out : COutPoint) :
    Bool × CCoinsViewCache :=
  v.modifyCoins usage out.hash (undoSpend undo out.n)

/-- The loop of `disconnectTip` over the inputs of a transaction, from the last to the
first. -/
def undoInputs (v : CCoinsViewCache) : List (COutPoint × CTxInUndo) → Bool × CCoinsViewCache
  | [] => (true, v)
  | (out, undo) :: rest =>
      let (cleanRest, v) := v.undoInputs rest
      let (clean, v) := v.applyTxInUndo usage undo out
      (cleanRest && clean, v)

/-- The check of `disconnectTip` that the outputs of a transaction are there. -/
def removeOutputs (v : CCoinsViewCache) (tx : CTransaction) (nHeight : Int32) :
    Bool × CCoinsViewCache :=
  v.modifyCoins usage tx.hash fun outs =>
    let outs := outs.clearUnspendable
    let outsBlock := CCoins.fromTx tx nHeight
    let outs := if outsBlock.nVersion < 0 then { outs with nVersion := outsBlock.nVersion }
      else outs
    (outs.same outsBlock, CCoins.empty)

/-- One round of the undo loop for a transaction behind the coinbase; `none` if it reads
past the end of the undo data. -/
def undoTransaction (v : CCoinsViewCache) (tx : CTransaction) (txundo : CTxUndo)
    (nHeight : Int32) : Option (Bool × CCoinsViewCache) :=
  if txundo.length < tx.vin.length then none
  else
    let (cleanOuts, v) := v.removeOutputs usage tx nHeight
    let (cleanIns, v) := v.undoInputs usage (tx.prevouts.zip txundo)
    some (cleanOuts && txundo.length == tx.vin.length && cleanIns, v)

/-- The undo loop over the transactions behind the coinbase, from the last to the
first. -/
def undoTransactions (v : CCoinsViewCache) (nHeight : Int32) :
    List (CTransaction × CTxUndo) → Option (Bool × CCoinsViewCache)
  | [] => some (true, v)
  | (tx, txundo) :: rest => do
      let (cleanRest, v) ← v.undoTransactions nHeight rest
      let (clean, v) ← v.undoTransaction usage tx txundo nHeight
      some (cleanRest && clean, v)

/-- The undo loop of `disconnectTip`, behind its test that block and undo data have the
same number of transactions; `none` is an error. -/
def undoBlock (v : CCoinsViewCache) (block : List CTransaction) (nHeight : Int32)
    (blockUndo : CBlockUndo) : Option (Bool × CCoinsViewCache) :=
  match block with
  | [] => none
  | coinbase :: txs => do
      guard (blockUndo.length = txs.length)
      let (cleanTxs, v) ← v.undoTransactions usage nHeight (txs.zip blockUndo)
      let (clean, v) := v.removeOutputs usage coinbase nHeight
      some (cleanTxs && clean, v)

end CCoinsViewCache

/-! ## What a run that returns went through -/

namespace CCoinsViewCache

variable {usage : CCoins → ℕ} {v v' : CCoinsViewCache} {nHeight : Int32}
  {check : ProcessBlockCheck}

theorem of_spendInputs_cons {p : COutPoint} {ps : List COutPoint} {r : List CCoins × CTxUndo}
    (h : v.spendInputs usage (p :: ps) = (.ok r, v')) :
    ∃ coin u v₁ inputs us, v.spendInput usage p = (.ok (coin, u), v₁) ∧
      v₁.spendInputs usage ps = (.ok (inputs, us), v') ∧ r = (coin :: inputs, u :: us) := by
  rw [spendInputs] at h
  cases hone : v.spendInput usage p with
  | mk r₁ v₁ =>
    rw [hone] at h
    cases r₁ with
    | error e => cases h
    | ok r₁ =>
      simp only at h
      cases hrest : v₁.spendInputs usage ps with
      | mk r₂ v₂ =>
        rw [hrest] at h
        cases r₂ with
        | error e => cases h
        | ok r₂ =>
          obtain ⟨hr, rfl⟩ := Prod.mk.inj h
          exact ⟨_, _, v₁, _, _, rfl, hrest, (Except.ok.inj hr).symm⟩

theorem of_processTransactions_cons {tx : CTransaction} {txs : List CTransaction}
    {r : List (List CCoins) × CBlockUndo}
    (h : v.processTransactions usage nHeight check (tx :: txs) = (.ok r, v')) :
    ∃ inputs us v₁ v₂ answer undo, v.spendInputs usage tx.prevouts = (.ok (inputs, us), v₁) ∧
      v₁.createCoins usage tx nHeight check = (.ok (), v₂) ∧
      v₂.processTransactions usage nHeight check txs = (.ok (answer, undo), v') ∧
      r = (inputs :: answer, us :: undo) := by
  rw [processTransactions] at h
  cases hspend : v.spendInputs usage tx.prevouts with
  | mk r₁ v₁ =>
    rw [hspend] at h
    cases r₁ with
    | error e => cases h
    | ok r₁ =>
      simp only at h
      cases hcreate : v₁.createCoins usage tx nHeight check with
      | mk r₂ v₂ =>
        rw [hcreate] at h
        cases r₂ with
        | error e => cases h
        | ok r₂ =>
          simp only at h
          cases hrest : v₂.processTransactions usage nHeight check txs with
          | mk r₃ v₃ =>
            rw [hrest] at h
            cases r₃ with
            | error e => cases h
            | ok r₃ =>
              obtain ⟨hr, rfl⟩ := Prod.mk.inj h
              exact ⟨_, _, v₁, v₂, _, _, rfl, hcreate, hrest, (Except.ok.inj hr).symm⟩

theorem of_processBlock_cons {coinbase : CTransaction} {txs : List CTransaction}
    {r : List (List CCoins) × CBlockUndo}
    (h : v.processBlock usage (coinbase :: txs) nHeight check = (.ok r, v')) :
    ∃ v₁ answer, v.createCoins usage coinbase nHeight check = (.ok (), v₁) ∧
      v₁.processTransactions usage nHeight check txs = (.ok (answer, r.2), v') ∧
      r.1 = [] :: answer := by
  rw [processBlock] at h
  cases hcreate : v.createCoins usage coinbase nHeight check with
  | mk r₁ v₁ =>
    rw [hcreate] at h
    cases r₁ with
    | error e => cases h
    | ok r₁ =>
      simp only at h
      cases hrest : v₁.processTransactions usage nHeight check txs with
      | mk r₂ v₂ =>
        rw [hrest] at h
        cases r₂ with
        | error e => cases h
        | ok r₂ =>
          obtain ⟨hr, rfl⟩ := Prod.mk.inj h
          obtain rfl := Except.ok.inj hr
          exact ⟨v₁, _, rfl, hrest, rfl⟩

end CCoinsViewCache

/-! ## One output -/

namespace CCoins

/-- The coins that are left when output `n` is spent. -/
def spent (c : CCoins) (n : ℕ) : CCoins := cleanup { c with vout := c.vout.set n CTxOut.null }

@[simp] theorem clean_spent (c : CCoins) (n : ℕ) : (c.spent n).Clean := clean_cleanup _

theorem spend_of_isAvailable {c : CCoins} {n : ℕ} (h : c.isAvailable n = true) :
    c.spend n = some (c.spent n) := if_pos h

theorem isAvailable_of_getElem? {c : CCoins} {n : ℕ} {o : CTxOut} (h : c.vout[n]? = some o)
    (ho : o.isNull = false) : c.isAvailable n = true := by
  rw [isAvailable, h]
  simpa using ho

theorem not_isPruned_of_getElem? {c : CCoins} {n : ℕ} {o : CTxOut} (h : c.vout[n]? = some o)
    (ho : o.isNull = false) : ¬ c.isPruned = true := by
  intro hp
  have hnull := List.all_eq_true.mp hp o (List.mem_of_getElem? h)
  rw [ho] at hnull
  cases hnull

/-- Spending an output keeps the coins canonical. -/
theorem Canonical.spent {c : CCoins} (h : c.Canonical) (n : ℕ) : (c.spent n).Canonical where
  clean := clean_spent c n
  nulls := by
    intro o ho hnull
    rcases List.mem_or_eq_of_mem_set ((List.rdropWhile_prefix _ _).subset ho) with hmem | rfl
    · exact h.nulls o hmem hnull
    · rfl

/-- Growing `vout` again and putting the output back gives the old `vout`. -/
theorem regrow {l : List CTxOut} {n : ℕ} {o : CTxOut}
    (hclean : l.rdropWhile CTxOut.isNull = l)
    (hnulls : ∀ x ∈ l, x.isNull = true → x = CTxOut.null) (ho : l[n]? = some o) :
    let l₁ := (l.set n CTxOut.null).rdropWhile CTxOut.isNull
    (l₁ ++ List.replicate (n + 1 - l₁.length) CTxOut.null).set n o = l := by
  intro l₁
  obtain ⟨hn, hget⟩ := List.getElem?_eq_some_iff.mp ho
  have hsplit : l₁ ++ (l.set n CTxOut.null).rtakeWhile CTxOut.isNull = l.set n CTxOut.null :=
    List.rdropWhile_append_rtakeWhile
  have hlen := congrArg List.length hsplit
  rw [List.length_append, List.length_set] at hlen
  -- behind `l₁` there are only null outputs
  have htail : ∀ i, l₁.length ≤ i → ∀ x, (l.set n CTxOut.null)[i]? = some x →
      x.isNull = true := by
    intro i hi x hx
    rw [← hsplit, List.getElem?_append_right hi] at hx
    exact List.mem_rtakeWhile_imp (List.mem_of_getElem? hx)
  apply List.ext_getElem?
  intro i
  rw [List.getElem?_set, List.length_append, List.length_replicate]
  by_cases hin : n = i
  · subst hin
    rw [if_pos rfl, if_pos (by omega), ho]
  · rw [if_neg hin]
    by_cases hi : i < l₁.length
    · have hfront : (l.set n CTxOut.null)[i]? = l₁[i]? := by
        rw [← hsplit]
        exact List.getElem?_append_left hi
      rw [List.getElem?_append_left hi, ← hfront, List.getElem?_set_ne hin]
    · rw [List.getElem?_append_right (by omega), List.getElem?_replicate]
      by_cases hlt : i < n
      · rw [if_pos (by omega), List.getElem?_eq_getElem (by omega)]
        have hset : (l.set n CTxOut.null)[i]? = some l[i] := by
          rw [List.getElem?_set_ne hin, List.getElem?_eq_getElem (by omega)]
        exact congrArg some
          (hnulls _ (List.getElem_mem _) (htail i (by omega) _ hset)).symm
      · rw [if_neg (by omega)]
        -- an output further up would make the last one null
        symm
        rw [List.getElem?_eq_none_iff]
        by_contra hge
        have hne' : l ≠ [] := List.ne_nil_of_length_pos (by omega)
        have hlast := List.rdropWhile_eq_self_iff.mp hclean hne'
        refine hlast (htail (l.length - 1) (by omega) _ ?_)
        rw [List.getElem?_set_ne (by omega), List.getLast_eq_getElem,
          List.getElem?_eq_getElem (by omega)]

end CCoins

namespace CCoinsViewCache

open CCoinsView

variable {usage : CCoins → ℕ}

/-- **One output, back and forth.**  Spend an output of canonical coins, and give the undo
data to any coins of the value that is left. -/
theorem undoSpend_spent {c d : CCoins} {n : ℕ} {o : CTxOut} (hc : c.Canonical)
    (hheight : c.nHeight ≠ 0) (ho : c.vout[n]? = some o) (hne : o.isNull = false)
    (hd : CCoins.norm (some d) = CCoins.norm (some (c.spent n))) :
    (undoSpend (undoFor o (c.spent n)) n d).1 = true ∧
      CCoins.norm (some (undoSpend (undoFor o (c.spent n)) n d).2.cleanup) = some c := by
  have hvout : c.vout.rdropWhile CTxOut.isNull = c.vout := congrArg CCoins.vout hc.clean
  have hback := CCoins.regrow hvout hc.nulls ho
  simp only at hback
  have hspent : (c.spent n).vout = (c.vout.set n CTxOut.null).rdropWhile CTxOut.isNull := rfl
  rw [← hspent] at hback
  have hvalue : CCoins.norm (some c.cleanup) = some c := by
    rw [hc.clean]
    exact CCoins.norm_some_of_not_pruned (CCoins.not_isPruned_of_getElem? ho hne)
  have hclean := CCoins.clean_spent c n
  by_cases hnil : (c.spent n).vout = []
  · -- the last unspent output: everything is in the undo data
    have hpruned : d.isPruned = true := by
      rw [CCoins.norm_some_of_pruned (hclean.isPruned_iff.mpr hnil)] at hd
      exact CCoins.norm_some_eq_none_iff.mp hd
    have hh : c.nHeight.toUInt32 ≠ 0 := by
      intro h0
      apply hheight
      have := congrArg UInt32.toInt32 h0
      simpa using this
    have hundo : undoFor o (c.spent n)
        = ⟨o, c.fCoinBase, c.nHeight.toUInt32, c.nVersion⟩ := if_pos hnil
    rw [hnil, List.nil_append, List.length_nil, Nat.sub_zero] at hback
    have hrun : undoSpend (undoFor o (c.spent n)) n d = (true, c) := by
      rw [hundo, undoSpend]
      simp only [ne_eq, hh, not_false_eq_true, if_true, hpruned, List.nil_append,
        List.length_nil, Nat.sub_zero, hback]
      rfl
    rw [hrun]
    exact ⟨rfl, hvalue⟩
  · have hnp : ¬ (c.spent n).isPruned = true := fun h => hnil (hclean.isPruned_iff.mp h)
    have hdeq : d = c.spent n := by
      rw [CCoins.norm_some_of_not_pruned hnp] at hd
      by_cases hp : d.isPruned = true
      · rw [CCoins.norm_some_of_pruned hp] at hd
        cases hd
      · rw [CCoins.norm_some_of_not_pruned hp] at hd
        exact Option.some.inj hd
    have havail : (c.spent n).isAvailable n = false := by
      rw [CCoins.isAvailable]
      cases hg : (c.spent n).vout[n]? with
      | none => rfl
      | some x =>
        have hpre : (c.spent n).vout <+: c.vout.set n CTxOut.null :=
          List.rdropWhile_prefix _ _
        obtain ⟨hlt, -⟩ := List.getElem?_eq_some_iff.mp ho
        have hx : (c.vout.set n CTxOut.null)[n]? = some x := by
          obtain ⟨hlt', hx'⟩ := List.getElem?_eq_some_iff.mp hg
          rw [← hx', List.IsPrefix.getElem hpre hlt', List.getElem?_eq_getElem]
        rw [List.getElem?_set_self hlt] at hx
        obtain rfl := Option.some.inj hx
        rfl
    have hundo : undoFor o (c.spent n) = ⟨o, false, 0, 0⟩ := if_neg hnil
    have hrun : undoSpend (undoFor o (c.spent n)) n d = (true, c) := by
      rw [hundo, hdeq, undoSpend]
      simp only [ne_eq, not_true_eq_false, if_false, hnp, havail, hback]
      rfl
    rw [hrun]
    exact ⟨rfl, hvalue⟩

/-! ## The inputs of a transaction -/

/-- The coins of a view in the form that `CCoins` keeps them in, at heights other than
that of the genesis block. -/
def UtxoOk (S : Uint256 → Option CCoins) : Prop :=
  ∀ t c, S t = some c → c.Canonical ∧ c.nHeight ≠ 0

/-- The values `S'` are the values `S` with the output `p` spent, and `u` is the undo
data. -/
def Spends (S : Uint256 → Option CCoins) (p : COutPoint) (u : CTxInUndo)
    (S' : Uint256 → Option CCoins) : Prop :=
  ∃ c o, S p.hash = some c ∧ c.vout[p.n]? = some o ∧ o.isNull = false ∧
    u = undoFor o (c.spent p.n) ∧
    S' = Function.update S p.hash (CCoins.norm (some (c.spent p.n)))

variable {S S' : Uint256 → Option CCoins}

/-- New coins at one key. -/
theorem UtxoOk.update (h : UtxoOk S) (t : Uint256) {c : CCoins} (hc : c.Canonical)
    (hheight : c.nHeight ≠ 0) : UtxoOk (Function.update S t (CCoins.norm (some c))) := by
  intro t' c' hc'
  by_cases ht : t' = t
  · subst ht
    rw [Function.update_self] at hc'
    by_cases hp : c.isPruned = true
    · rw [CCoins.norm_some_of_pruned hp] at hc'
      cases hc'
    · rw [CCoins.norm_some_of_not_pruned hp] at hc'
      obtain rfl := Option.some.inj hc'
      exact ⟨hc, hheight⟩
  · rw [Function.update_of_ne ht] at hc'
    exact h t' c' hc'

theorem UtxoOk.spends (h : UtxoOk S) {p : COutPoint} {u : CTxInUndo} (hs : Spends S p u S') :
    UtxoOk S' := by
  obtain ⟨c, o, hc, -, -, -, rfl⟩ := hs
  obtain ⟨hcan, hheight⟩ := h _ _ hc
  exact h.update p.hash (hcan.spent p.n) hheight

/-- `FetchCoins` gives what the view holds, and changes no value. -/
theorem accessCoins_spec {v v' : CCoinsViewCache} {r : Option CCoins} (h : v.view.Wf)
    {txid : Uint256} (hrun : v.accessCoins usage txid = (r, v')) :
    r = v.view.lookup txid ∧ v'.view.value = v.view.value ∧ v'.view.Wf := by
  have heq := view_accessCoins usage v txid
  rw [hrun] at heq
  have hwf := h.getCoins usage txid
  have hfst := getCoins_fst usage v.view txid
  have hval := fun t => value_getCoins usage v.view txid t
  rw [← heq] at hwf hfst hval
  exact ⟨hfst, funext hval, hwf⟩

theorem spendInput_spec {v v' : CCoinsViewCache} {p : COutPoint} {coin : CCoins}
    {u : CTxInUndo} (h : v.view.Wf) (hrun : v.spendInput usage p = (.ok (coin, u), v')) :
    Spends v.view.value p u v'.view.value ∧ v'.view.Wf := by
  unfold spendInput at hrun
  cases hacc : v.accessCoins usage p.hash with
  | mk r v₁ =>
    obtain ⟨hr, hval, hwf⟩ := accessCoins_spec h hacc
    rw [hacc] at hrun
    cases r with
    | none => cases hrun
    | some c =>
      simp only at hrun
      cases ho : c.vout[p.n]? with
      | none =>
        rw [ho] at hrun
        cases hrun
      | some o =>
        rw [ho] at hrun
        simp only at hrun
        by_cases hnull : o.isNull = true
        · rw [if_pos hnull] at hrun
          cases hrun
        · rw [if_neg hnull] at hrun
          have hne : o.isNull = false := by simpa using hnull
          have hnp := CCoins.not_isPruned_of_getElem? ho hne
          have hvalue : v.view.value p.hash = some c := by
            rw [value, ← hr, CCoins.norm_some_of_not_pruned hnp]
          have hspend := CCoins.spend_of_isAvailable (CCoins.isAvailable_of_getElem? ho hne)
          obtain ⟨c', hc', -, hres, hupd, -, hwf'⟩ := modifyCoins_spec usage hwf p.hash
            fun modifyCoin => match modifyCoin.spend p.n with
              | none => ((.error "bad-txns-inputs-missingorspent" :
                  Except String (CCoins × CTxInUndo)), modifyCoin)
              | some modifyCoin => (.ok (c, undoFor o modifyCoin), modifyCoin)
          -- the modifier is opened on the coins that were read
          obtain rfl : c = c' := by
            rw [hval, hvalue] at hc'
            exact Option.some.inj (Option.filter_eq_some_iff.mp hc').1.symm
          have hclean : (c.spent p.n).cleanup = c.spent p.n := CCoins.clean_spent c p.n
          rw [hrun] at hres hupd hwf'
          simp only [hspend] at hres hupd
          obtain ⟨rfl, rfl⟩ := Prod.mk.inj (Except.ok.inj hres)
          refine ⟨⟨_, o, hvalue, ho, hne, rfl, ?_⟩, hwf'⟩
          rw [hupd, hval, hclean]

variable (usage) in
theorem applyTxInUndo_spec {p : COutPoint} {u : CTxInUndo} (hS : UtxoOk S)
    (hs : Spends S p u S') {w : CCoinsViewCache} (hw : w.view.Wf) (hval : w.view.value = S') :
    ∃ w', w.applyTxInUndo usage u p = (true, w') ∧ w'.view.Wf ∧ w'.view.value = S := by
  obtain ⟨c, o, hc, ho, hne, rfl, rfl⟩ := hs
  obtain ⟨hcan, hheight⟩ := hS _ _ hc
  obtain ⟨d, hd, -, hres, hupd, -, hwf⟩ := modifyCoins_spec usage hw p.hash
    (undoSpend (undoFor o (c.spent p.n)) p.n)
  rw [hval, Function.update_self] at hd
  obtain ⟨hclean, hback⟩ := undoSpend_spent hcan hheight ho hne hd
  refine ⟨_, Prod.ext (hres.trans hclean) rfl, hwf, ?_⟩
  rw [applyTxInUndo, hupd, hback, hval, Function.update_idem, ← hc, Function.update_eq_self]

/-- **The inputs of a transaction, back and forth.** -/
theorem undoInputs_spendInputs (ps : List COutPoint) : ∀ {v v' : CCoinsViewCache}
    {inputs : List CCoins} {us : CTxUndo}, v.view.Wf → UtxoOk v.view.value →
    v.spendInputs usage ps = (.ok (inputs, us), v') →
    v'.view.Wf ∧ UtxoOk v'.view.value ∧ us.length = ps.length ∧
      ∀ w : CCoinsViewCache, w.view.Wf → w.view.value = v'.view.value →
        ∃ w', w.undoInputs usage (ps.zip us) = (true, w') ∧ w'.view.Wf ∧
          w'.view.value = v.view.value := by
  induction ps with
  | nil =>
    intro v v' inputs us hwf hS hrun
    rw [spendInputs] at hrun
    obtain ⟨hres, rfl⟩ := Prod.mk.inj hrun
    obtain ⟨-, rfl⟩ := Prod.mk.inj (Except.ok.inj hres)
    exact ⟨hwf, hS, rfl, fun w hw hval => ⟨w, rfl, hw, hval⟩⟩
  | cons p ps ih =>
    intro v v' inputs us hwf hS hrun
    obtain ⟨coin, u, v₁, inputs', us', hone, hrest, heq⟩ := of_spendInputs_cons hrun
    obtain ⟨-, rfl⟩ := Prod.mk.inj heq
    obtain ⟨hs, hwf₁⟩ := spendInput_spec hwf hone
    obtain ⟨hwf₂, hS₂, hlen, hundo⟩ := ih hwf₁ (hS.spends hs) hrest
    refine ⟨hwf₂, hS₂, congrArg Nat.succ hlen, fun w hw hval => ?_⟩
    obtain ⟨w₁, hw₁, hwwf₁, hwval₁⟩ := hundo w hw hval
    obtain ⟨w₂, hw₂, hwwf₂, hwval₂⟩ :=
      applyTxInUndo_spec usage hS hs hwwf₁ hwval₁
    refine ⟨w₂, ?_, hwwf₂, hwval₂⟩
    simp only [List.zip_cons_cons, undoInputs, hw₁, hw₂, Bool.and_self]

end CCoinsViewCache

/-! ## The outputs of a transaction -/

namespace CCoins

variable {tx : CTransaction} {nHeight : Int32}

variable (nHeight) in
/-- New coins are canonical unless an output of the transaction looks like a spent one. -/
theorem canonical_fromTx (hout : ∀ o ∈ tx.vout, o.isNull = false) :
    (fromTx tx nHeight).Canonical where
  clean := clean_cleanup _
  nulls := by
    intro o ho hnull
    obtain ⟨o', ho', rfl⟩ := List.mem_map.mp ((List.rdropWhile_prefix _ _).subset ho)
    by_cases hu : o'.isUnspendable = true
    · rw [if_pos hu]
    · rw [if_neg hu] at hnull
      rw [hout o' ho'] at hnull
      cases hnull

/-- `ClearUnspendable` has nothing more to do. -/
theorem clearUnspendable_fromTx : (fromTx tx nHeight).clearUnspendable = fromTx tx nHeight := by
  have hmap : (fromTx tx nHeight).vout.map (fun o => if o.isUnspendable then CTxOut.null else o)
      = (fromTx tx nHeight).vout := by
    refine (List.map_congr_left fun o ho => ?_).trans (List.map_id _)
    obtain ⟨o', -, rfl⟩ := List.mem_map.mp ((List.rdropWhile_prefix _ _).subset ho)
    by_cases hu : o'.isUnspendable = true
    · rw [if_pos hu]
      rfl
    · rw [if_neg hu, if_neg hu]
      rfl
  have hclean : (fromTx tx nHeight).Clean := clean_cleanup _
  rw [clearUnspendable, hmap]
  exact hclean

theorem isPruned_clearUnspendable {c : CCoins} (h : c.isPruned = true) :
    c.clearUnspendable.isPruned = true := by
  rw [clearUnspendable, isPruned_cleanup]
  apply List.all_eq_true.mpr
  intro o ho
  obtain ⟨o', ho', rfl⟩ := List.mem_map.mp ho
  by_cases hu : o'.isUnspendable = true
  · rw [if_pos hu, CTxOut.isNull_null]
  · rw [if_neg hu]
    exact List.all_eq_true.mp h o' ho'

end CCoins

namespace CCoinsViewCache

open CCoinsView

variable {usage : CCoins → ℕ}

/-- New coins are made only where the view holds none. -/
theorem createCoins_spec {v v' : CCoinsViewCache} {tx : CTransaction} {nHeight : Int32}
    (h : v.view.Wf)
    (hrun : v.createCoins usage tx nHeight .checkDuplicateTxId = (.ok (), v')) :
    v.view.value tx.hash = none ∧ v'.view.Wf ∧ v'.view.value
      = Function.update v.view.value tx.hash (CCoins.norm (some (CCoins.fromTx tx nHeight))) := by
  obtain ⟨c, hc, -, hres, hupd, -, hwf⟩ := modifyCoins_spec usage h tx.hash
    fun modifyCoin =>
      if ProcessBlockCheck.checkDuplicateTxId = .checkDuplicateTxId ∧ ¬ modifyCoin.isPruned then
        ((.error "bad-txns-BIP30" : Except String Unit), modifyCoin)
      else (.ok (), CCoins.fromTx tx nHeight)
  rw [createCoins] at hrun
  rw [hrun] at hres hupd hwf
  by_cases hp : c.isPruned = true
  · rw [if_neg (by simp [hp])] at hupd
    refine ⟨?_, hwf, ?_⟩
    · rw [← hc, CCoins.norm_some_of_pruned hp]
    · have hclean : (CCoins.fromTx tx nHeight).cleanup = CCoins.fromTx tx nHeight :=
        CCoins.clean_cleanup _
      rw [hclean] at hupd
      exact hupd
  · rw [if_pos ⟨rfl, hp⟩] at hres
    cases hres

variable (usage) in
/-- **The outputs of a transaction, back and forth.** -/
theorem removeOutputs_spec {S : Uint256 → Option CCoins} {tx : CTransaction} {nHeight : Int32}
    (hnone : S tx.hash = none) {w : CCoinsViewCache} (hw : w.view.Wf)
    (hval : w.view.value
      = Function.update S tx.hash (CCoins.norm (some (CCoins.fromTx tx nHeight)))) :
    ∃ w', w.removeOutputs usage tx nHeight = (true, w') ∧ w'.view.Wf ∧ w'.view.value = S := by
  obtain ⟨c, hc, -, hres, hupd, -, hwf⟩ := modifyCoins_spec usage hw tx.hash
    fun outs =>
      let outs := outs.clearUnspendable
      let outsBlock := CCoins.fromTx tx nHeight
      let outs := if outsBlock.nVersion < 0 then { outs with nVersion := outsBlock.nVersion }
        else outs
      (outs.same outsBlock, CCoins.empty)
  refine ⟨_, Prod.ext (hres.trans ?_) rfl, hwf, ?_⟩
  · rw [hval, Function.update_self] at hc
    simp only
    by_cases hp : (CCoins.fromTx tx nHeight).isPruned = true
    · -- only unspendable outputs
      rw [CCoins.norm_some_of_pruned hp, CCoins.norm_some_eq_none_iff] at hc
      have hclear := CCoins.isPruned_clearUnspendable hc
      rw [CCoins.same_iff, CCoins.norm_some_of_pruned hp, CCoins.norm_some_eq_none_iff]
      split
      · exact hclear
      · exact hclear
    · rw [CCoins.norm_some_of_not_pruned hp] at hc
      obtain rfl : c = CCoins.fromTx tx nHeight :=
        Option.some.inj (Option.filter_eq_some_iff.mp hc).1
      rw [CCoins.clearUnspendable_fromTx, CCoins.same_iff, ite_self]
  · rw [removeOutputs, hupd, hval, Function.update_idem]
    have hempty : CCoins.norm (some CCoins.empty.cleanup) = none := rfl
    rw [hempty, ← hnone, Function.update_eq_self]

/-! ## Blocks -/

/-- **A transaction, back and forth.** -/
theorem undoTransactions_processTransactions (nHeight : Int32) (hheight : nHeight ≠ 0)
    (txs : List CTransaction) (hout : ∀ tx ∈ txs, ∀ o ∈ tx.vout, o.isNull = false) :
    ∀ {v v' : CCoinsViewCache} {answer : List (List CCoins)} {undo : CBlockUndo},
    v.view.Wf → UtxoOk v.view.value →
    v.processTransactions usage nHeight .checkDuplicateTxId txs = (.ok (answer, undo), v') →
    v'.view.Wf ∧ UtxoOk v'.view.value ∧ undo.length = txs.length ∧
      ∀ w : CCoinsViewCache, w.view.Wf → w.view.value = v'.view.value →
        ∃ w', w.undoTransactions usage nHeight (txs.zip undo) = some (true, w') ∧ w'.view.Wf ∧
          w'.view.value = v.view.value := by
  induction txs with
  | nil =>
    intro v v' answer undo hwf hS hrun
    rw [processTransactions] at hrun
    obtain ⟨hres, rfl⟩ := Prod.mk.inj hrun
    obtain ⟨-, rfl⟩ := Prod.mk.inj (Except.ok.inj hres)
    exact ⟨hwf, hS, rfl, fun w hw hval => ⟨w, rfl, hw, hval⟩⟩
  | cons tx txs ih =>
    intro v v' answer undo hwf hS hrun
    obtain ⟨inputs, us, v₁, v₂, answer', undo', hspend, hcreate, hrest, heq⟩ :=
      of_processTransactions_cons hrun
    obtain ⟨-, rfl⟩ := Prod.mk.inj heq
    obtain ⟨hwf₁, hS₁, hlen₁, hundo₁⟩ := undoInputs_spendInputs _ hwf hS hspend
    obtain ⟨hnone, hwf₂, hval₂⟩ := createCoins_spec hwf₁ hcreate
    have hcan := CCoins.canonical_fromTx nHeight (hout tx (by simp))
    have hS₂ : UtxoOk v₂.view.value := by
      rw [hval₂]
      exact hS₁.update tx.hash hcan hheight
    obtain ⟨hwf', hS', hlen, hundo⟩ := ih (fun tx' h => hout tx' (by simp [h])) hwf₂ hS₂ hrest
    refine ⟨hwf', hS', congrArg Nat.succ hlen, fun w hw hval => ?_⟩
    -- the later transactions first, then the outputs, then the inputs
    obtain ⟨w₁, hw₁, hwwf₁, hwval₁⟩ := hundo w hw hval
    obtain ⟨w₂, hw₂, hwwf₂, hwval₂⟩ :=
      removeOutputs_spec usage hnone hwwf₁ (hwval₁.trans hval₂)
    obtain ⟨w₃, hw₃, hwwf₃, hwval₃⟩ := hundo₁ w₂ hwwf₂ hwval₂
    have hvin : us.length = tx.vin.length := by
      rw [hlen₁, CTransaction.prevouts, List.length_map]
    have htx : w₁.undoTransaction usage tx us nHeight = some (true, w₃) := by
      rw [undoTransaction, if_neg (by omega), hw₂]
      simp only [hw₃, hvin, beq_self_eq_true, Bool.and_self]
    refine ⟨w₃, ?_, hwwf₃, hwval₃⟩
    simp only [List.zip_cons_cons, undoTransactions, hw₁, htx, Option.bind_eq_bind,
      Option.bind_some, Bool.and_self]

/-- **A block, back and forth.** -/
theorem undoBlock_processBlock (usage : CCoins → ℕ) {v v' : CCoinsViewCache}
    (hv : v.view.Wf) (hS : UtxoOk v.view.value) {block : List CTransaction} (hne : block ≠ [])
    (hout : ∀ tx ∈ block, ∀ o ∈ tx.vout, o.isNull = false) {nHeight : Int32}
    (hheight : nHeight ≠ 0) {answer : List (List CCoins)} {undo : CBlockUndo}
    (hrun : v.processBlock usage block nHeight .checkDuplicateTxId = (.ok (answer, undo), v')) :
    v'.view.Wf ∧ UtxoOk v'.view.value ∧
      ∀ w : CCoinsViewCache, w.view.Wf → w.view.value = v'.view.value →
        ∃ w', w.undoBlock usage block nHeight undo = some (true, w') ∧ w'.view.Wf ∧
          w'.view.value = v.view.value := by
  cases block with
  | nil => exact absurd rfl hne
  | cons coinbase txs =>
    obtain ⟨v₁, answer', hcreate, htxs, -⟩ := of_processBlock_cons hrun
    obtain ⟨hnone, hwf₁, hval₁⟩ := createCoins_spec hv hcreate
    have hcan := CCoins.canonical_fromTx nHeight (hout coinbase (by simp))
    have hS₁ : UtxoOk v₁.view.value := by
      rw [hval₁]
      exact hS.update coinbase.hash hcan hheight
    obtain ⟨hwf', hS', hlen, hundo⟩ := undoTransactions_processTransactions nHeight hheight txs
      (fun tx h => hout tx (by simp [h])) hwf₁ hS₁ htxs
    refine ⟨hwf', hS', fun w hw hval => ?_⟩
    obtain ⟨w₁, hw₁, hwwf₁, hwval₁⟩ := hundo w hw hval
    obtain ⟨w₂, hw₂, hwwf₂, hwval₂⟩ :=
      removeOutputs_spec usage hnone hwwf₁ (hwval₁.trans hval₁)
    refine ⟨w₂, ?_, hwwf₂, hwval₂⟩
    simp only [undoBlock, hlen, guard_true, hw₁, hw₂, Option.bind_eq_bind, Option.bind_some,
      Option.pure_def, Bool.and_self]

/-- **Undoing a block.**  Connect a block to a view with `processBlock`, and run the undo
loop of `disconnectTip` with the undo data that this gave, on the resulting view or on any
other one with its values.  It is clean, and every transaction has its old value back. -/
theorem undo_processBlock (usage : CCoins → ℕ) {v v' : CCoinsViewCache}
    (hv : v.view.Wf) (hS : UtxoOk v.view.value) {block : List CTransaction} (hne : block ≠ [])
    (hout : ∀ tx ∈ block, ∀ o ∈ tx.vout, o.isNull = false) {nHeight : Int32}
    (hheight : nHeight ≠ 0) {answer : List (List CCoins)} {undo : CBlockUndo}
    (hrun : v.processBlock usage block nHeight .checkDuplicateTxId = (.ok (answer, undo), v')) :
    v'.view.Wf ∧ ∀ w : CCoinsViewCache, w.view.Wf → w.view.value = v'.view.value →
      ∃ w', w.undoBlock usage block nHeight undo = some (true, w') ∧
        w'.view.value = v.view.value := by
  obtain ⟨hwf', -, hundo⟩ := undoBlock_processBlock usage hv hS hne hout hheight hrun
  refine ⟨hwf', fun w hw hval => ?_⟩
  obtain ⟨w', hw', -, hval'⟩ := hundo w hw hval
  exact ⟨w', hw', hval'⟩

/-- A cache over an empty database. -/
def overEmpty : CCoinsViewCache := .create (.db ⟨∅, 0⟩)

theorem wf_overEmpty : overEmpty.view.Wf := by
  refine ⟨fun t c h => ?_, fun t e h => ?_⟩
  · cases h
  · cases h

/-- The input of a coinbase. -/
def coinbaseInput : CTxIn := ⟨⟨0, 0xFFFFFFFF⟩, [1, 1], 0⟩

/-- Both outputs of the coinbase that can be spent are spent in the block, and the last
transaction has unspendable outputs only. -/
def chainBlock : List CTransaction := [
  ⟨1, 1, [coinbaseInput], [⟨5, [0x51]⟩, ⟨0, [0x6a]⟩, ⟨7, [0x51]⟩], 0⟩,
  ⟨2, 1, [⟨⟨1, 0⟩, [], 0⟩, ⟨⟨1, 2⟩, [], 0⟩], [⟨11, [0x51]⟩], 0⟩,
  ⟨3, -1, [⟨⟨2, 0⟩, [], 0⟩], [⟨0, [0x6a]⟩], 0⟩]

theorem undo_processBlock_chainBlock : ∃ answer undo v' w',
    overEmpty.processBlock (fun _ => 0) chainBlock 1 .checkDuplicateTxId
      = (.ok (answer, undo), v') ∧
    v'.undoBlock (fun _ => 0) chainBlock 1 undo = some (true, w') ∧
    w'.view.value = overEmpty.view.value := by
  have hok : (overEmpty.processBlock (fun _ => 0) chainBlock 1 .checkDuplicateTxId).1.isOk
      = true := by decide
  cases hrun : overEmpty.processBlock (fun _ => 0) chainBlock 1 .checkDuplicateTxId with
  | mk r v' =>
    rw [hrun] at hok
    cases r with
    | error e => cases hok
    | ok r =>
      obtain ⟨hwf', hundo⟩ := undo_processBlock (fun _ => 0) wf_overEmpty
        (fun t c h => by cases h) (by decide) (by decide) (by decide) hrun
      obtain ⟨w', hw', hval⟩ := hundo v' hwf' rfl
      exact ⟨r.1, r.2, v', w', rfl, hw', hval⟩

/-- The coinbase has an output of value -1, which a view takes for a spent one. -/
def negativeBlock : List CTransaction := [
  ⟨1, 1, [coinbaseInput], [⟨-1, [0x51]⟩, ⟨5, [0x51]⟩], 0⟩,
  ⟨2, 1, [⟨⟨1, 1⟩, [], 0⟩], [⟨4, [0x51]⟩], 0⟩]

/-- `processBlock` takes it, but undoing it is not clean: the script of the output is
lost. -/
theorem not_undo_processBlock_negativeBlock :
    ¬ ∀ (usage : CCoins → ℕ) (v v' : CCoinsViewCache) (block : List CTransaction)
        (nHeight : Int32) (answer : List (List CCoins)) (undo : CBlockUndo), v.view.Wf →
      UtxoOk v.view.value → block ≠ [] → 1 ≤ nHeight →
      v.processBlock usage block nHeight .checkDuplicateTxId = (.ok (answer, undo), v') →
      ∃ w', v'.undoBlock usage block nHeight undo = some (true, w') ∧
        w'.view.value = v.view.value := by
  intro h
  have hundo : (match overEmpty.processBlock (fun _ => 0) negativeBlock 1 .checkDuplicateTxId with
      | (.ok (_, undo), v') => (v'.undoBlock (fun _ => 0) negativeBlock 1 undo).map Prod.fst
      | (.error _, _) => none) = some false := by decide
  cases hrun : overEmpty.processBlock (fun _ => 0) negativeBlock 1 .checkDuplicateTxId with
  | mk r v' =>
    rw [hrun] at hundo
    cases r with
    | error e => cases hundo
    | ok r =>
      obtain ⟨w', hw', -⟩ := h _ _ _ _ 1 r.1 r.2 wf_overEmpty (fun t c h => by cases h)
        (by decide) (by decide) hrun
      simp only [hw', Option.map_some] at hundo
      cases hundo

end CCoinsViewCache
