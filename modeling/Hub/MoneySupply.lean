/-
# No inflation

A block may create coins in its coinbase only: as much as the subsidy of its height and the fees of its
transactions.  The parts of this rule are in `Validation::checkTransaction`, in
`CCoinsViewCache::processBlock`, in `validateTransactionInputs`, whose fees are added up by the chunks of
signature checks, and in the reward check of `processNewBlock` (`libs/server/validation`).  `acceptBlock`
puts them together.  All sums are sums of `int64_t`s, and `sum` says how they are made.

`AtMost` bounds the unspent outputs of any transactions together; each step of a block moves the bound.

* `acceptBlock_exact` : no sum overflows, whatever blocks are offered;
* `supply_le` : the unspent outputs are worth at most the subsidies so far, which is less than 21 million
  coins.
-/
import Hub.BlockTemplate
import Hub.TxValidation
import Mathlib.Algebra.BigOperators.Intervals
import Mathlib.Algebra.Order.BigOperators.Group.List

/-! ## The code -/

namespace Validation

/-- A sum of `int64_t`s. -/
def sumInt64 (l : List ℤ) : ℤ := l.foldl (fun a b => (a + b).bmod (2 ^ 64)) 0

variable (sum : List ℤ → ℤ)

/-- `validateTransactionInputs`: the fee. -/
def inputFees (tx : CTransaction) (coins : List CCoins) (blockHeight : ℤ) : Except Exception ℤ :=
  let valueIn := sum ((tx.prevouts.zip coins).map fun pc => valueOf pc.1 pc.2)
  let valueOut := (tx.vout.map CTxOut.nValue).sum
  let fees := valueIn - valueOut
  if valueIn < valueOut then .error ⟨"bad-txns-in-belowout", 100⟩
  else if !moneyRange valueIn then .error ⟨"bad-txns-inputvalues-outofrange", 100⟩
  else if fees < 0 then .error ⟨"bad-txns-fee-negative", 100⟩
  else if !moneyRange fees then .error ⟨"bad-txns-fee-outofrange", 100⟩
  else (checkCoins blockHeight (tx.prevouts.zip coins)).map fun _ => fees

/-- The fees of the transactions behind the coinbase. -/
def txFees (blockHeight : ℤ) : List (CTransaction × List CCoins) → Except Exception (List ℤ)
  | [] => .ok []
  | (tx, coins) :: rest => do
      let fees ← inputFees sum tx coins blockHeight
      let restFees ← txFees blockHeight rest
      return fees :: restFees

end Validation

/-- A block that is offered; `chunks` are the fees that the chunks of its transactions add to
`m_blockFees`, in the order in which the chunks finish. -/
structure OfferedBlock where
  vtx : List CTransaction
  check : ProcessBlockCheck
  chunks : List ℤ → List (List ℤ)
  perm : ∀ fees, (chunks fees).flatten.Perm fees

/-- The coins of the active chain, and the height of its tip. -/
structure ChainCoins where
  coins : CCoinsView
  nHeight : ℕ

namespace ChainCoins

open Validation

/-- The genesis block: it makes no coins. -/
def genesis : ChainCoins := ⟨.db ⟨∅, 0⟩, 0⟩

variable (sum : List ℤ → ℤ) (usage : CCoins → ℕ) (nSubsidyHalvingInterval : ℕ)

/-- What a block goes through until its coins are written, with full validation. -/
def acceptBlock (s : ChainCoins) (b : OfferedBlock) : Except Exception ChainCoins :=
  let nHeight := s.nHeight + 1
  match b.vtx with
  | [] => .error ⟨"bad-blk-length", 100⟩
  | coinbase :: txs => do
      b.vtx.forM checkTransaction
      match (CCoinsViewCache.create s.coins).processBlock usage b.vtx (Int32.ofNat nHeight)
          b.check with
      | (.error e, _) => .error ⟨e, 100⟩
      | (.ok (answer, _), view) => do
          let fees ← txFees sum nHeight (txs.zip answer.tail)
          let m_blockFees := sum ((b.chunks fees).map sum)
          let blockReward := sum [m_blockFees, getBlockSubsidy nSubsidyHalvingInterval nHeight]
          if (coinbase.vout.map CTxOut.nValue).sum > blockReward then
            .error ⟨"bad-cb-amount", 100⟩
          else .ok ⟨(view.flush usage).base, nHeight⟩

/-- A block is offered; one that is refused changes nothing. -/
def offer (s : ChainCoins) (b : OfferedBlock) : ChainCoins :=
  match s.acceptBlock sum usage nSubsidyHalvingInterval b with
  | .ok s' => s'
  | .error _ => s

/-- The subsidies up to a height. -/
def totalSubsidy (nHeight : ℕ) : ℤ :=
  ∑ h ∈ Finset.range nHeight, getBlockSubsidy nSubsidyHalvingInterval (h + 1)

end ChainCoins

/-! ## The subsidies -/

namespace ChainCoins

open Validation

/-- The subsidy at a height with `k` halvings before it. -/
theorem getBlockSubsidy_eq (interval h : ℕ) :
    getBlockSubsidy interval h = if 64 ≤ h / interval then 0 else 5000000000 / 2 ^ (h / interval) := by
  rfl

/-- Twice the next subsidy is at most the last one. -/
theorem two_mul_halved_le (k : ℕ) :
    2 * (if 64 ≤ k + 1 then (0 : ℤ) else 5000000000 / 2 ^ (k + 1))
      ≤ if 64 ≤ k then (0 : ℤ) else 5000000000 / 2 ^ k := by
  by_cases hk : 64 ≤ k + 1
  · rw [if_pos hk]
    split_ifs
    · omega
    · exact Int.ediv_nonneg (by omega) (by positivity)
  · rw [if_neg hk, if_neg (by omega), pow_succ, ← Int.ediv_ediv_of_nonneg (by positivity)]
    omega

theorem getBlockSubsidy_nonneg (interval h : ℕ) : 0 ≤ getBlockSubsidy interval h := by
  rw [getBlockSubsidy_eq]
  split_ifs
  · exact Int.le_refl 0
  · exact Int.ediv_nonneg (by omega) (by positivity)

/-- What has been paid up to height `n`, what is left of the current halving, and as much again for all
that follow. -/
theorem sum_range_subsidy_le {interval : ℕ} (hpos : 0 < interval) (n : ℕ) :
    (∑ h ∈ Finset.range n, getBlockSubsidy interval h)
        + (2 * interval - (n % interval : ℕ)) * getBlockSubsidy interval n
      ≤ 2 * interval * 5000000000 := by
  induction n with
  | zero =>
    rw [Finset.sum_range_zero, Nat.zero_mod, getBlockSubsidy_eq, Nat.zero_div]
    rw [if_neg (by omega), pow_zero, Int.ediv_one]
    simp
  | succ n ih =>
    have hlt := Nat.mod_lt n hpos
    have hdiv := Nat.div_add_mod n interval
    rw [Finset.sum_range_succ]
    by_cases hlast : n % interval + 1 = interval
    · -- the subsidy is halved
      have hn : n + 1 = interval * (n / interval + 1) := by
        rw [Nat.mul_add, Nat.mul_one]
        omega
      have hq : (n + 1) / interval = n / interval + 1 := by
        rw [hn, Nat.mul_div_cancel_left _ hpos]
      have hr : (n + 1) % interval = 0 := by
        rw [hn, Nat.mul_mod_right]
      have hhalf : 2 * getBlockSubsidy interval (n + 1) ≤ getBlockSubsidy interval n := by
        rw [getBlockSubsidy_eq, getBlockSubsidy_eq, hq]
        exact two_mul_halved_le (n / interval)
      have hmul := mul_le_mul_of_nonneg_left hhalf (Int.natCast_nonneg interval)
      have hcast : ((n % interval : ℕ) : ℤ) + 1 = interval := congrArg Nat.cast hlast
      have hrest : (2 * (interval : ℤ) - (n % interval : ℕ)) * getBlockSubsidy interval n
          = getBlockSubsidy interval n + interval * getBlockSubsidy interval n := by
        rw [← hcast]
        ring
      rw [hr, Nat.cast_zero]
      linarith
    · have hn : n + 1 = interval * (n / interval) + (n % interval + 1) := by omega
      have hzero : (n % interval + 1) / interval = 0 := Nat.div_eq_of_lt (by omega)
      have hq : (n + 1) / interval = n / interval := by
        rw [hn, Nat.mul_add_div hpos, hzero, Nat.add_zero]
      have hr : (n + 1) % interval = n % interval + 1 := by
        rw [hn, Nat.mul_add_mod, Nat.mod_eq_of_lt (by omega)]
      have hsame : getBlockSubsidy interval (n + 1) = getBlockSubsidy interval n := by
        rw [getBlockSubsidy_eq, getBlockSubsidy_eq, hq]
      have hrest : (2 * (interval : ℤ) - ((n % interval : ℕ) + 1)) * getBlockSubsidy interval n
          = (2 * (interval : ℤ) - (n % interval : ℕ)) * getBlockSubsidy interval n
            - getBlockSubsidy interval n := by ring
      rw [hr, hsame, Nat.cast_add, Nat.cast_one, hrest]
      linarith

/-- The subsidies of all heights are less than 21 million coins on a chain that halves them at least as
often as the main chain. -/
theorem totalSubsidy_le {interval : ℕ} (hpos : 0 < interval) (hmain : interval ≤ 210000) (n : ℕ) :
    totalSubsidy interval n + getBlockSubsidy interval 0 ≤ maxMoney := by
  have hsum := sum_range_subsidy_le hpos (n + 1)
  have hmod : ((n + 1) % interval : ℕ) ≤ interval := (Nat.mod_lt _ hpos).le
  have hrest : 0 ≤ (2 * (interval : ℤ) - ((n + 1) % interval : ℕ)) * getBlockSubsidy interval (n + 1) :=
    mul_nonneg (by omega) (getBlockSubsidy_nonneg interval (n + 1))
  rw [Finset.sum_range_succ'] at hsum
  unfold totalSubsidy maxMoney
  omega

theorem totalSubsidy_nonneg (interval n : ℕ) : 0 ≤ totalSubsidy interval n :=
  Finset.sum_nonneg fun h _ => getBlockSubsidy_nonneg interval (h + 1)

theorem totalSubsidy_succ (interval n : ℕ) :
    totalSubsidy interval (n + 1) = totalSubsidy interval n + getBlockSubsidy interval (n + 1) :=
  Finset.sum_range_succ _ n

end ChainCoins

/-! ## Amounts -/

/-- What an output is worth; a spent one is worth nothing. -/
def CTxOut.amount (o : CTxOut) : ℤ := if o.isNull then 0 else o.nValue

namespace CCoins

/-- What the unspent outputs of a transaction are worth. -/
def amount (c : CCoins) : ℤ := (c.vout.map CTxOut.amount).sum

variable {c : CCoins}

theorem amount_cleanup (c : CCoins) : c.cleanup.amount = c.amount := by
  unfold amount cleanup
  induction c.vout using List.reverseRecOn with
  | nil => rfl
  | append_singleton l o ih =>
    by_cases ho : o.isNull = true
    · have hzero : o.amount = 0 := if_pos ho
      rw [List.rdropWhile_concat_pos _ _ _ ho, ih, List.map_append, List.sum_append, List.map_cons,
        List.map_nil, List.sum_singleton, hzero, Int.add_zero]
    · rw [List.rdropWhile_concat_neg _ _ _ ho]

/-- An output is spent. -/
theorem amount_spent {n : ℕ} {o : CTxOut} (ho : c.vout[n]? = some o) :
    (c.spent n).amount = c.amount - o.amount := by
  obtain ⟨hn, rfl⟩ := List.getElem?_eq_some_iff.mp ho
  rw [spent, amount_cleanup]
  change ((c.vout.set n CTxOut.null).map CTxOut.amount).sum = _
  rw [List.map_set, List.sum_set', dif_pos (by rw [List.length_map]; exact hn), List.getElem_map]
  change _ + (-_ + 0) = _
  rw [Int.add_zero]
  rfl

end CCoins

/-- What the value of a transaction in a view is worth. -/
def amountOf (o : Option CCoins) : ℤ := o.elim 0 CCoins.amount

theorem amountOf_norm (c : CCoins) : amountOf (CCoins.norm (some c)) = c.amount := by
  by_cases hp : c.isPruned = true
  · rw [CCoins.norm_some_of_pruned hp]
    symm
    refine List.sum_eq_zero fun a ha => ?_
    obtain ⟨o, ho, rfl⟩ := List.mem_map.mp ha
    exact if_pos (List.all_eq_true.mp hp o ho)
  · rw [CCoins.norm_some_of_not_pruned hp]
    rfl

/-- No output has a negative amount, and the transactions `F` are worth at most `B` together, whichever
they are. -/
structure AtMost (S : Uint256 → Option CCoins) (B : ℤ) : Prop where
  nonneg : ∀ {t c}, S t = some c → ∀ o ∈ c.vout, 0 ≤ o.amount
  sum_le : ∀ F : Finset Uint256, ∑ t ∈ F, amountOf (S t) ≤ B

namespace AtMost

variable {S S' : Uint256 → Option CCoins} {B : ℤ}

theorem amountOf_nonneg (h : AtMost S B) (t : Uint256) : 0 ≤ amountOf (S t) := by
  cases hc : S t with
  | none => exact Int.le_refl 0
  | some c =>
    refine List.sum_nonneg fun a ha => ?_
    obtain ⟨o, ho, rfl⟩ := List.mem_map.mp ha
    exact h.nonneg hc o ho

theorem bound_nonneg (h : AtMost S B) : 0 ≤ B := h.sum_le ∅

theorem mono {B' : ℤ} (h : AtMost S B) (hle : B ≤ B') : AtMost S B' :=
  ⟨h.nonneg, fun F => (h.sum_le F).trans hle⟩

/-- The coins of one transaction are replaced. -/
theorem update (h : AtMost S B) {t : Uint256} {c : CCoins} {B' : ℤ}
    (hc : ∀ o ∈ c.vout, 0 ≤ o.amount) (hB : B - amountOf (S t) + c.amount ≤ B') :
    AtMost (Function.update S t (CCoins.norm (some c))) B' where
  nonneg := by
    intro t' c' hc'
    by_cases ht : t' = t
    · subst ht
      rw [Function.update_self] at hc'
      obtain rfl := Option.some.inj (Option.filter_eq_some_iff.mp hc').1
      exact hc
    · rw [Function.update_of_ne ht] at hc'
      exact h.nonneg hc'
  sum_le F := by
    -- the transaction that is replaced counts in any case
    have hwith := h.sum_le (insert t F)
    have hsplit := Finset.add_sum_erase (insert t F) (fun t => amountOf (S t))
      (Finset.mem_insert_self t F)
    have hsame : ∑ t' ∈ (insert t F).erase t, amountOf (Function.update S t (CCoins.norm (some c)) t')
        = ∑ t' ∈ (insert t F).erase t, amountOf (S t') := by
      refine Finset.sum_congr rfl fun t' ht' => ?_
      rw [Function.update_of_ne (Finset.ne_of_mem_erase ht')]
    have hnew := Finset.add_sum_erase (insert t F)
      (fun t' => amountOf (Function.update S t (CCoins.norm (some c)) t'))
      (Finset.mem_insert_self t F)
    rw [hsame] at hnew
    simp only [Function.update_self, amountOf_norm] at hnew
    have hmono : ∑ t' ∈ F, amountOf (Function.update S t (CCoins.norm (some c)) t')
        ≤ ∑ t' ∈ insert t F, amountOf (Function.update S t (CCoins.norm (some c)) t') := by
      refine Finset.sum_le_sum_of_subset_of_nonneg (Finset.subset_insert t F) fun t' _ _ => ?_
      by_cases ht : t' = t
      · subst ht
        rw [Function.update_self, amountOf_norm]
        refine List.sum_nonneg fun a ha => ?_
        obtain ⟨o, ho, rfl⟩ := List.mem_map.mp ha
        exact hc o ho
      · rw [Function.update_of_ne ht]
        exact h.amountOf_nonneg t'
    omega

/-- An output is spent. -/
theorem spends (h : AtMost S B) {p : COutPoint} {u : CTxInUndo}
    (hs : CCoinsViewCache.Spends S p u S') : ∃ c, S p.hash = some c ∧
      0 ≤ Validation.valueOf p c ∧ AtMost S' (B - Validation.valueOf p c) := by
  obtain ⟨c, o, hc, ho, hnull, -, rfl⟩ := hs
  have hvalue : Validation.valueOf p c = o.nValue := by
    rw [Validation.valueOf, ho]
    rfl
  have hamount : o.amount = o.nValue := if_neg (Bool.eq_false_iff.mp hnull)
  have hmem : o ∈ c.vout := List.mem_of_getElem? ho
  refine ⟨c, hc, ?_, h.update (fun o' ho' => ?_) ?_⟩
  · rw [hvalue, ← hamount]
    exact h.nonneg hc o hmem
  · have hin : o' ∈ c.vout.set p.n CTxOut.null :=
      (List.rdropWhile_prefix CTxOut.isNull _).subset ho'
    rcases List.mem_or_eq_of_mem_set hin with hin | rfl
    · exact h.nonneg hc o' hin
    · exact Int.le_refl 0
  · rw [CCoins.amount_spent ho, hc, hvalue, hamount]
    change B - c.amount + (c.amount - o.nValue) ≤ B - o.nValue
    omega

end AtMost

/-! ## Sums -/

namespace Validation

theorem foldl_add_bmod : ∀ {l : List ℤ} {a : ℤ}, 0 ≤ a → (∀ x ∈ l, 0 ≤ x) → a + l.sum < 2 ^ 63 →
    l.foldl (fun a b => (a + b).bmod (2 ^ 64)) a = a + l.sum := by
  intro l
  induction l with
  | nil =>
    intro a _ _ _
    exact (Int.add_zero a).symm
  | cons x l ih =>
    intro a ha hl hsum
    have hx := hl x List.mem_cons_self
    have hrest : 0 ≤ l.sum := List.sum_nonneg fun y hy => hl y (List.mem_cons_of_mem x hy)
    rw [List.sum_cons] at hsum
    have hexact : (a + x).bmod (2 ^ 64) = a + x := Int.bmod_eq_of_le (by omega) (by omega)
    rw [List.foldl_cons, hexact, ih (by omega) (fun y hy => hl y (List.mem_cons_of_mem x hy))
      (by omega), List.sum_cons, Int.add_assoc]

/-- A sum of amounts that fits is exact. -/
theorem sumInt64_eq {l : List ℤ} (hl : ∀ x ∈ l, 0 ≤ x) (hsum : l.sum < 2 ^ 63) :
    sumInt64 l = l.sum := by
  have heq := foldl_add_bmod (Int.le_refl 0) hl (by rwa [Int.zero_add])
  rwa [Int.zero_add] at heq

/-- The sums of the chunks, in any order. -/
theorem sumInt64_chunks {fees : List ℤ} (hfees : ∀ x ∈ fees, 0 ≤ x) (hsum : fees.sum < 2 ^ 63)
    {chunks : List (List ℤ)} (hperm : chunks.flatten.Perm fees) :
    sumInt64 (chunks.map sumInt64) = (chunks.map List.sum).sum ∧
      (chunks.map List.sum).sum = fees.sum := by
  have htotal : (chunks.map List.sum).sum = fees.sum := by
    rw [← List.sum_flatten]
    exact hperm.sum_eq
  have hnonneg : ∀ chunk ∈ chunks, ∀ x ∈ chunk, 0 ≤ x := fun chunk hchunk x hx =>
    hfees x (hperm.mem_iff.mp (List.mem_flatten.mpr ⟨chunk, hchunk, hx⟩))
  have hsums : ∀ y ∈ chunks.map List.sum, 0 ≤ y := by
    intro y hy
    obtain ⟨chunk, hchunk, rfl⟩ := List.mem_map.mp hy
    exact List.sum_nonneg (hnonneg chunk hchunk)
  have hmap : chunks.map sumInt64 = chunks.map List.sum := by
    refine List.map_congr_left fun chunk hchunk => sumInt64_eq (hnonneg chunk hchunk) ?_
    have hle := List.single_le_sum hsums chunk.sum (List.mem_map_of_mem hchunk)
    omega
  rw [hmap]
  exact ⟨sumInt64_eq hsums (by omega), htotal⟩

/-- The outputs of a transaction that passes are worth at most all coins. -/
theorem sum_le_of_checkOutputs : ∀ {l : List CTxOut} {v : ℤ}, v ≤ maxMoney →
    checkOutputs l v = .ok () → v + (l.map CTxOut.nValue).sum ≤ maxMoney := by
  intro l
  induction l with
  | nil =>
    intro v hv _
    rw [List.map_nil, List.sum_nil, Int.add_zero]
    exact hv
  | cons o l ih =>
    intro v _ h
    rw [checkOutputs] at h
    simp only at h
    split_ifs at h with hneg hbig hrange
    have hrest := ih hrange.2 h
    rw [List.map_cons, List.sum_cons]
    omega

theorem sum_le_of_checkTransaction {tx : CTransaction} (h : checkTransaction tx = .ok ()) :
    (tx.vout.map CTxOut.nValue).sum ≤ maxMoney := by
  have hle := sum_le_of_checkOutputs (by decide) (loops_of_checkTransaction h).1
  rwa [Int.zero_add] at hle

/-- A fee is what the inputs are worth more than the outputs. -/
theorem fee_of_inputFees {tx : CTransaction} {coins : List CCoins} {blockHeight fee : ℤ}
    (h : inputFees List.sum tx coins blockHeight = .ok fee) :
    fee = ((tx.prevouts.zip coins).map fun pc => valueOf pc.1 pc.2).sum
        - (tx.vout.map CTxOut.nValue).sum ∧ 0 ≤ fee := by
  unfold inputFees at h
  simp only at h
  split_ifs at h with hbelow hrange hneg hout
  cases hcheck : checkCoins blockHeight (tx.prevouts.zip coins) with
  | error e =>
    rw [hcheck] at h
    cases h
  | ok u =>
    rw [hcheck] at h
    obtain rfl := Except.ok.inj h
    exact ⟨rfl, Int.not_lt.mp hneg⟩

end Validation

/-! ## The coins of a block -/

namespace CCoinsViewCache

open CCoinsView Validation

variable {usage : CCoins → ℕ} {v v' : CCoinsViewCache} {B : ℤ}

/-- New coins replace what is there. -/
theorem value_createCoins {tx : CTransaction} {nHeight : Int32} {check : ProcessBlockCheck}
    (h : v.view.Wf) (hrun : v.createCoins usage tx nHeight check = (.ok (), v')) :
    v'.view.Wf ∧ v'.view.value
      = Function.update v.view.value tx.hash (CCoins.norm (some (CCoins.fromTx tx nHeight))) := by
  obtain ⟨c, -, -, hres, hupd, -, hwf⟩ := modifyCoins_spec usage h tx.hash
    fun modifyCoin =>
      if check = .checkDuplicateTxId ∧ ¬ modifyCoin.isPruned then
        ((.error "bad-txns-BIP30" : Except String Unit), modifyCoin)
      else (.ok (), CCoins.fromTx tx nHeight)
  rw [createCoins] at hrun
  rw [hrun] at hres hupd hwf
  by_cases hp : check = .checkDuplicateTxId ∧ ¬ c.isPruned
  · rw [if_pos hp] at hres
    cases hres
  · rw [if_neg hp] at hupd
    have hclean : (CCoins.fromTx tx nHeight).cleanup = CCoins.fromTx tx nHeight :=
      CCoins.clean_cleanup _
    rw [hclean] at hupd
    exact ⟨hwf, hupd⟩

/-- A transaction creates at most what its outputs say. -/
theorem atMost_createCoins {tx : CTransaction} {nHeight : Int32} {check : ProcessBlockCheck}
    (h : v.view.Wf) (hB : AtMost v.view.value B) (hout : ∀ o ∈ tx.vout, 0 ≤ o.nValue)
    (hrun : v.createCoins usage tx nHeight check = (.ok (), v')) :
    v'.view.Wf ∧ AtMost v'.view.value (B + (tx.vout.map CTxOut.nValue).sum) := by
  obtain ⟨hwf, hval⟩ := value_createCoins h hrun
  have hamount : ∀ o ∈ tx.vout, 0 ≤ (if o.isUnspendable then CTxOut.null else o).amount ∧
      (if o.isUnspendable then CTxOut.null else o).amount ≤ o.nValue := by
    intro o ho
    have hpos := hout o ho
    by_cases hu : o.isUnspendable = true
    · rw [if_pos hu]
      exact ⟨Int.le_refl 0, hpos⟩
    · rw [if_neg hu, CTxOut.amount]
      split_ifs
      · exact ⟨Int.le_refl 0, hpos⟩
      · exact ⟨hpos, Int.le_refl _⟩
  have hle : (CCoins.fromTx tx nHeight).amount ≤ (tx.vout.map CTxOut.nValue).sum := by
    rw [CCoins.fromTx, CCoins.clearUnspendable, CCoins.amount_cleanup, CCoins.amount, List.map_map]
    exact List.sum_le_sum fun o ho => (hamount o ho).2
  refine ⟨hwf, ?_⟩
  rw [hval]
  refine hB.update (fun o ho => ?_) ?_
  · have hin := (List.rdropWhile_prefix CTxOut.isNull _).subset ho
    obtain ⟨o', ho', rfl⟩ := List.mem_map.mp hin
    exact (hamount o' ho').1
  · have hold := hB.amountOf_nonneg tx.hash
    omega

/-- What `processBlock` hands out for an input are the coins of the view. -/
theorem coin_of_spendInput {p : COutPoint} {coin : CCoins} {u : CTxInUndo}
    (hrun : v.spendInput usage p = (.ok (coin, u), v')) :
    ∃ v₁, v.accessCoins usage p.hash = (some coin, v₁) := by
  unfold spendInput at hrun
  cases hacc : v.accessCoins usage p.hash with
  | mk r v₁ =>
    rw [hacc] at hrun
    cases r with
    | none => cases hrun
    | some c =>
      simp only at hrun
      cases ho : c.vout[p.n]? with
      | none =>
        rw [ho] at hrun
        cases hrun
      | some o =>
        rw [ho] at hrun
        simp only at hrun
        by_cases hnull : o.isNull = true
        · rw [if_pos hnull] at hrun
          cases hrun
        · rw [if_neg hnull, modifyCoins] at hrun
          cases hopen : v₁.openModifier usage p.hash with
          | mk entry rest =>
            obtain ⟨cachedCoinUsage, base⟩ := rest
            rw [hopen] at hrun
            simp only at hrun
            cases hspend : entry.coins.spend p.n with
            | none =>
              rw [hspend] at hrun
              cases hrun
            | some modifyCoin =>
              rw [hspend] at hrun
              obtain ⟨hres, -⟩ := Prod.mk.inj hrun
              obtain ⟨rfl, -⟩ := Prod.mk.inj (Except.ok.inj hres)
              exact ⟨v₁, rfl⟩

/-- An input takes its value out. -/
theorem atMost_spendInput {p : COutPoint} {coin : CCoins} {u : CTxInUndo} (h : v.view.Wf)
    (hB : AtMost v.view.value B) (hrun : v.spendInput usage p = (.ok (coin, u), v')) :
    v'.view.Wf ∧ 0 ≤ valueOf p coin ∧ AtMost v'.view.value (B - valueOf p coin) := by
  obtain ⟨hspends, hwf⟩ := spendInput_spec h hrun
  obtain ⟨c, hc, hrest⟩ := hB.spends hspends
  obtain ⟨v₁, hacc⟩ := coin_of_spendInput hrun
  have hlookup := (accessCoins_spec h hacc).1
  obtain rfl : coin = c := by
    rw [value, ← hlookup] at hc
    exact Option.some.inj (Option.filter_eq_some_iff.mp hc).1
  exact ⟨hwf, hrest⟩

/-- The inputs of a transaction. -/
theorem atMost_spendInputs : ∀ {ps : List COutPoint} {v : CCoinsViewCache} {B : ℤ}
    {inputs : List CCoins} {us : CTxUndo}, v.view.Wf → AtMost v.view.value B →
    v.spendInputs usage ps = (.ok (inputs, us), v') →
    v'.view.Wf ∧ (∀ x ∈ (ps.zip inputs).map (fun pc => valueOf pc.1 pc.2), 0 ≤ x) ∧
      AtMost v'.view.value (B - ((ps.zip inputs).map fun pc => valueOf pc.1 pc.2).sum) := by
  intro ps
  induction ps with
  | nil =>
    intro v B inputs us hwf hB hrun
    obtain ⟨hr, rfl⟩ := Prod.mk.inj hrun
    refine ⟨hwf, fun x hx => absurd hx List.not_mem_nil, ?_⟩
    rw [List.zip_nil_left, List.map_nil, List.sum_nil, Int.sub_zero]
    exact hB
  | cons p ps ih =>
    intro v B inputs us hwf hB hrun
    obtain ⟨coin, u, v₁, inputs, us, hone, hrest, heq⟩ := of_spendInputs_cons hrun
    obtain ⟨rfl, rfl⟩ := Prod.mk.inj heq
    obtain ⟨hwf₁, hnonneg, hB₁⟩ := atMost_spendInput hwf hB hone
    obtain ⟨hwf', hvalues, hB'⟩ := ih hwf₁ hB₁ hrest
    rw [List.zip_cons_cons, List.map_cons, List.sum_cons]
    refine ⟨hwf', fun x hx => ?_, ?_⟩
    · rcases List.mem_cons.mp hx with rfl | hx
      · exact hnonneg
      · exact hvalues x hx
    · rw [← Int.sub_sub]
      exact hB'

/-- The transactions behind the coinbase: the fees do not depend on how they are summed up, and they are
what the transactions take out. -/
theorem atMost_processTransactions {nHeight : Int32} {check : ProcessBlockCheck} (blockHeight : ℤ) :
    ∀ {txs : List CTransaction} {v : CCoinsViewCache} {B : ℤ} {answer : List (List CCoins)}
      {undo : CBlockUndo}, v.view.Wf → AtMost v.view.value B → B < 2 ^ 63 →
    (∀ tx ∈ txs, checkTransaction tx = .ok ()) →
    v.processTransactions usage nHeight check txs = (.ok (answer, undo), v') →
    txFees sumInt64 blockHeight (txs.zip answer) = txFees List.sum blockHeight (txs.zip answer) ∧
      ∀ fees, txFees List.sum blockHeight (txs.zip answer) = .ok fees →
        v'.view.Wf ∧ (∀ x ∈ fees, 0 ≤ x) ∧ AtMost v'.view.value (B - fees.sum) := by
  intro txs
  induction txs with
  | nil =>
    intro v B answer undo hwf hB _ _ hrun
    obtain ⟨hr, rfl⟩ := Prod.mk.inj hrun
    refine ⟨rfl, fun fees hfees => ?_⟩
    obtain rfl := Except.ok.inj hfees
    refine ⟨hwf, fun x hx => absurd hx List.not_mem_nil, ?_⟩
    rw [List.sum_nil, Int.sub_zero]
    exact hB
  | cons tx txs ih =>
    intro v B answer undo hwf hB hsmall hchecked hrun
    obtain ⟨inputs, us, v₁, v₂, answer, undo, hspend, hcreate, hrest, heq⟩ :=
      of_processTransactions_cons hrun
    obtain ⟨rfl, rfl⟩ := Prod.mk.inj heq
    obtain ⟨hwf₁, hvalues, hB₁⟩ := atMost_spendInputs hwf hB hspend
    obtain ⟨hwf₂, hB₂⟩ := atMost_createCoins hwf₁ hB₁
      (of_checkTransaction (hchecked tx List.mem_cons_self)).1 hcreate
    have hbound := hB₁.bound_nonneg
    have hsum := sumInt64_eq hvalues (by omega)
    have hfee : inputFees sumInt64 tx inputs blockHeight
        = inputFees List.sum tx inputs blockHeight := by
      unfold inputFees
      rw [hsum]
    rw [List.zip_cons_cons, txFees, txFees, hfee]
    cases hcase : inputFees List.sum tx inputs blockHeight with
    | error e => exact ⟨rfl, fun fees hfees => nomatch hfees⟩
    | ok fee =>
      obtain ⟨hpays, hfeepos⟩ := fee_of_inputFees hcase
      obtain ⟨hsame, hall⟩ := ih hwf₂ (hB₂.mono (by omega : _ ≤ B - fee)) (by omega)
        (fun tx' htx' => hchecked tx' (List.mem_cons_of_mem tx htx')) hrest
      rw [hsame]
      refine ⟨rfl, fun fees hfees => ?_⟩
      cases hcaseRest : txFees List.sum blockHeight (txs.zip answer) with
      | error e =>
        rw [hcaseRest] at hfees
        cases hfees
      | ok restFees =>
        rw [hcaseRest] at hfees
        obtain rfl := Except.ok.inj hfees
        obtain ⟨hwf', hnonneg, hB'⟩ := hall restFees hcaseRest
        refine ⟨hwf', fun x hx => ?_, ?_⟩
        · rcases List.mem_cons.mp hx with rfl | hx
          · exact hfeepos
          · exact hnonneg x hx
        · rw [List.sum_cons, ← Int.sub_sub]
          exact hB'

end CCoinsViewCache

/-! ## Chains -/

namespace ChainCoins

open Validation

variable {usage : CCoins → ℕ} {interval : ℕ} {s : ChainCoins}

theorem checkTransaction_of_forM : ∀ {txs : List CTransaction},
    txs.forM checkTransaction = .ok () → ∀ tx ∈ txs, checkTransaction tx = .ok () := by
  intro txs
  induction txs with
  | nil => exact fun _ tx htx => absurd htx List.not_mem_nil
  | cons tx txs ih =>
    intro h tx' htx'
    change (checkTransaction tx >>= fun _ => txs.forM checkTransaction) = .ok () at h
    cases hone : checkTransaction tx with
    | error e =>
      rw [hone] at h
      cases h
    | ok u =>
      rw [hone] at h
      rcases List.mem_cons.mp htx' with rfl | hrest
      · exact hone
      · exact ih h tx' hrest

/-- The coins are worth at most the subsidies. -/
def Bounded (interval : ℕ) (s : ChainCoins) : Prop :=
  s.coins.Wf ∧ AtMost s.coins.value (totalSubsidy interval s.nHeight)

theorem bounded_genesis (interval : ℕ) : Bounded interval genesis := by
  have hnone : ∀ t, genesis.coins.value t = none := fun t => by
    change CCoins.norm (AList.lookup t (∅ : AList fun _ : Uint256 => CCoins)) = none
    rw [AList.lookup_empty]
    rfl
  refine ⟨fun t c hc => ?_, fun {t c} hc => ?_, fun F => ?_⟩
  · rw [AList.lookup_empty] at hc
    cases hc
  · rw [hnone t] at hc
    cases hc
  · rw [Finset.sum_eq_zero fun t _ => by rw [hnone t]; rfl]
    exact totalSubsidy_nonneg interval 0

/-- **A block** finds every sum exact, and where it is accepted it keeps the bound. -/
theorem acceptBlock_spec (usage : CCoins → ℕ) (hpos : 0 < interval) (hmain : interval ≤ 210000)
    (hs : Bounded interval s) (b : OfferedBlock) :
    s.acceptBlock sumInt64 usage interval b = s.acceptBlock List.sum usage interval b ∧
      ∀ s', s.acceptBlock List.sum usage interval b = .ok s' →
        s'.nHeight = s.nHeight + 1 ∧ Bounded interval s' := by
  obtain ⟨hwf, hB⟩ := hs
  unfold acceptBlock
  cases hvtx : b.vtx with
  | nil => exact ⟨rfl, fun s' h => nomatch h⟩
  | cons coinbase txs =>
    simp only
    cases hcheck : (coinbase :: txs).forM checkTransaction with
    | error e => exact ⟨rfl, fun s' h => nomatch h⟩
    | ok u =>
      have hchecked := checkTransaction_of_forM hcheck
      have hwf₀ : (CCoinsViewCache.create s.coins).view.Wf :=
        ⟨hwf, fun t e h => (by cases h)⟩
      have hval₀ : (CCoinsViewCache.create s.coins).view.value = s.coins.value := by
        funext t
        exact CCoinsView.value_cache_of_none (AList.lookup_empty t)
      rw [← hval₀] at hB
      cases hrun : (CCoinsViewCache.create s.coins).processBlock usage (coinbase :: txs)
          (Int32.ofNat (s.nHeight + 1)) b.check with
      | mk r view =>
        cases r with
        | error e => exact ⟨rfl, fun s' h => nomatch h⟩
        | ok r =>
          obtain ⟨v₁, answer, hcreate, htxs, hanswer⟩ :=
            CCoinsViewCache.of_processBlock_cons hrun
          obtain ⟨answers, undo⟩ := r
          obtain rfl : answers = [] :: answer := hanswer
          -- the coinbase comes first, and what it creates is not yet paid for
          have hcb := sum_le_of_checkTransaction (hchecked coinbase List.mem_cons_self)
          obtain ⟨hwf₁, hB₁⟩ := CCoinsViewCache.atMost_createCoins hwf₀ hB
            (of_checkTransaction (hchecked coinbase List.mem_cons_self)).1 hcreate
          have hsupply := totalSubsidy_le hpos hmain s.nHeight
          have hnext := totalSubsidy_le hpos hmain (s.nHeight + 1)
          have hsubsidy := getBlockSubsidy_nonneg interval (s.nHeight + 1)
          have hfirst := getBlockSubsidy_nonneg interval 0
          have hbefore := totalSubsidy_nonneg interval s.nHeight
          have hmax : maxMoney = 2100000000000000 := rfl
          rw [totalSubsidy_succ] at hnext
          obtain ⟨hsame, hfees⟩ := CCoinsViewCache.atMost_processTransactions
            (s.nHeight + 1 : ℕ) hwf₁ hB₁ (by omega)
            (fun tx htx => hchecked tx (List.mem_cons_of_mem coinbase htx)) htxs
          simp only [List.tail_cons, bind, Except.bind, hsame]
          cases hcase : txFees List.sum ((s.nHeight + 1 : ℕ) : ℤ) (txs.zip answer) with
          | error e => exact ⟨rfl, fun s' h => nomatch h⟩
          | ok fees =>
            obtain ⟨hwf', hnonneg, hB'⟩ := hfees fees hcase
            have hleft := hB'.bound_nonneg
            have htotal : 0 ≤ fees.sum := List.sum_nonneg hnonneg
            obtain ⟨hchunks, hexact⟩ := sumInt64_chunks hnonneg (by omega) (b.perm fees)
            have hreward : sumInt64 [fees.sum, getBlockSubsidy interval (s.nHeight + 1)]
                = fees.sum + getBlockSubsidy interval (s.nHeight + 1) := by
              rw [sumInt64_eq]
              · rw [List.sum_cons, List.sum_singleton]
              · intro x hx
                rcases List.mem_cons.mp hx with rfl | hx
                · exact htotal
                · rw [List.mem_singleton.mp hx]
                  exact hsubsidy
              · rw [List.sum_cons, List.sum_singleton]
                omega
            have hplain : [fees.sum, getBlockSubsidy interval (s.nHeight + 1)].sum
                = fees.sum + getBlockSubsidy interval (s.nHeight + 1) := by
              rw [List.sum_cons, List.sum_singleton]
            simp only [hchunks, hexact, hreward, hplain]
            refine ⟨trivial, fun s' hacc => ?_⟩
            split_ifs at hacc with hpaid
            obtain rfl := Except.ok.inj hacc
            obtain ⟨hflush, -, hbase, -⟩ := CCoinsViewCache.flush_spec usage hwf'
            refine ⟨rfl, hflush.1, ?_⟩
            rw [hbase]
            refine hB'.mono ?_
            rw [totalSubsidy_succ]
            omega

/-- The coins after any blocks have been offered. -/
def chain (usage : CCoins → ℕ) (interval : ℕ) (blocks : List OfferedBlock) : ChainCoins :=
  blocks.foldl (offer sumInt64 usage interval) genesis

/-- What one block preserves, any blocks preserve. -/
theorem bounded_chain (hpos : 0 < interval) (hmain : interval ≤ 210000)
    (blocks : List OfferedBlock) : Bounded interval (chain usage interval blocks) := by
  induction blocks using List.reverseRecOn with
  | nil => exact bounded_genesis interval
  | append_singleton blocks b ih =>
    obtain ⟨hsame, hstep⟩ := acceptBlock_spec usage hpos hmain ih b
    rw [chain, List.foldl_append, List.foldl_cons, List.foldl_nil, ← chain, offer, hsame]
    cases hcase : (chain usage interval blocks).acceptBlock List.sum usage interval b with
    | error e => exact ih
    | ok s' => exact (hstep s' hcase).2

/-- **The sums of money.**  Whatever blocks have been offered, the next one is judged as if fees and values
were added up without overflow. -/
theorem acceptBlock_exact (hpos : 0 < interval) (hmain : interval ≤ 210000)
    (blocks : List OfferedBlock) (b : OfferedBlock) :
    (chain usage interval blocks).acceptBlock sumInt64 usage interval b
      = (chain usage interval blocks).acceptBlock List.sum usage interval b :=
  (acceptBlock_spec usage hpos hmain (bounded_chain hpos hmain blocks) b).1

/-- A block with a coinbase that claims an amount. -/
def coinbaseBlock (hash : Uint256) (nValue : ℤ) : OfferedBlock where
  vtx := [⟨hash, 1, [CCoinsViewCache.coinbaseInput], [⟨nValue, [0x51]⟩], 0⟩]
  check := .checkDuplicateTxId
  chunks fees := [fees]
  perm fees := by rw [List.flatten_singleton]

/-- The second block claims more than the subsidy. -/
def claims : List OfferedBlock := [coinbaseBlock 1 5000000000, coinbaseBlock 2 5000000001]

theorem acceptBlock_exact_claims :
    (chain (fun _ => 0) 210000 claims).acceptBlock sumInt64 (fun _ => 0) 210000
        (coinbaseBlock 3 4999999999)
      = (chain (fun _ => 0) 210000 claims).acceptBlock List.sum (fun _ => 0) 210000
        (coinbaseBlock 3 4999999999) :=
  acceptBlock_exact (by decide) (by decide) claims (coinbaseBlock 3 4999999999)

/-- **No inflation.**  Whatever blocks have been offered, the unspent outputs of any transactions are worth
at most the subsidies of the blocks that were accepted, and these are worth less than 21 million coins. -/
theorem supply_le (hpos : 0 < interval) (hmain : interval ≤ 210000)
    (blocks : List OfferedBlock) (F : Finset Uint256) :
    ∑ t ∈ F, amountOf ((chain usage interval blocks).coins.value t)
        ≤ totalSubsidy interval (chain usage interval blocks).nHeight ∧
      totalSubsidy interval (chain usage interval blocks).nHeight < maxMoney := by
  refine ⟨(bounded_chain hpos hmain blocks).2.sum_le F, ?_⟩
  have hle := totalSubsidy_le hpos hmain (chain usage interval blocks).nHeight
  have hfirst : 0 < getBlockSubsidy interval 0 := by
    rw [getBlockSubsidy_eq, Nat.zero_div]
    decide
  omega

theorem supply_le_claims : (chain (fun _ => 0) 210000 claims).nHeight = 1 ∧
    ∑ t ∈ {1, 2}, amountOf ((chain (fun _ => 0) 210000 claims).coins.value t)
      ≤ totalSubsidy 210000 (chain (fun _ => 0) 210000 claims).nHeight :=
  ⟨by decide, (supply_le (by decide) (by decide) claims {1, 2}).1⟩

end ChainCoins
