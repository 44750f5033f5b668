/-
# Runs of the memory pool

The operations of `CTxMemPool` as the steps of a system, and what they do to the
transactions of the pool and to `mapNextTx`.

`Frame` is what the bookkeeping of links and totals leaves alone.  `NextExact` says that
`mapNextTx` is exactly the function from the outpoints that the transactions of the pool
spend to the transaction and the input.  `conflictFree_of_run`: this holds after every
run of operations.
-/
import Hub.BlockUndo
import Hub.MemPool
import Hub.Runs

/-- The operations. -/
inductive PoolOp where
  | insertTx (entry : CTxMemPoolEntry)
  | remove (tx : CTransaction)
  | removeForBlock (vtx : List CTransaction) (utxoDBCursor : Option CCoinsViewCache)
  | connectBlock (vtx : List CTransaction) (nHeight : Int32) (hashBlock : Uint256)
  | removeConflicts (tx : CTransaction)
  | removeForReorg (nMemPoolHeight : ℤ) (final : CTransaction → Bool)
  | expire (time : ℤ)
  | trimToSize (sizelimit : ℕ)
  | prioritiseTransaction (hash : Uint256) (nFeeDelta : ℤ)
  | clear

namespace CTxMemPool

/-- A block is validated against a cache over the coins of the pool, and this cache is the
cursor that is given to `removeForBlock` if the block is valid. -/
def connectBlock (usage : CCoins → ℕ) (mu : MemUsage) (s : CTxMemPool)
    (vtx : List CTransaction) (nHeight : Int32) (hashBlock : Uint256) :
    Option (List CTransaction × CTxMemPool) :=
  match (CCoinsViewCache.create s.coins).processBlock usage vtx nHeight .checkDuplicateTxId with
  | (.ok _, cursor) => s.removeForBlock usage mu vtx (some (cursor.setBestBlock hashBlock))
  | (.error _, cursor) => some ([], { s with coins := cursor.base })

/-- One operation; `remove` is the recursive one. -/
def step (usage : CCoins → ℕ) (mu : MemUsage) (lowest : CTxMemPool → Option Uint256)
    (s : CTxMemPool) : PoolOp → Option CTxMemPool
  | .insertTx entry => (s.insertTx usage mu entry).map Prod.snd
  | .remove tx => (s.remove mu tx true).map Prod.snd
  | .removeForBlock vtx cursor => (s.removeForBlock usage mu vtx cursor).map Prod.snd
  | .connectBlock vtx nHeight hashBlock =>
      (s.connectBlock usage mu vtx nHeight hashBlock).map Prod.snd
  | .removeConflicts tx => (s.removeConflicts mu tx).map Prod.snd
  | .removeForReorg nMemPoolHeight final => s.removeForReorg usage mu nMemPoolHeight final
  | .expire time => (s.expire mu time).map Prod.snd
  | .trimToSize sizelimit => (s.trimToSize mu lowest sizelimit).map Prod.snd
  | .prioritiseTransaction hash nFeeDelta => s.prioritiseTransaction hash nFeeDelta
  | .clear => some s.clear

/-! ## What the bookkeeping leaves alone -/

end CTxMemPool

/-- An entry without its totals. -/
def CTxMemPoolEntry.core (e : CTxMemPoolEntry) : CTxMemPoolEntry :=
  { e with nCountWithDescendants := 0, nSizeWithDescendants := 0, nModFeesWithDescendants := 0 }

theorem CTxMemPoolEntry.core_updateState {e e' : CTxMemPoolEntry} {size fee count : ℤ}
    (h : e.updateState size fee count = some e') : e'.core = e.core := by
  unfold updateState at h
  by_cases hd : e.isDirty = true
  · rw [if_pos hd] at h
    obtain rfl := Option.some.inj h
    rfl
  · rw [if_neg hd] at h
    simp only [Option.bind_eq_bind, Option.bind_eq_some_iff] at h
    obtain ⟨-, -, -, -, h⟩ := h
    obtain rfl := Option.some.inj h
    rfl

namespace CTxMemPool

/-- The entry of a transaction without its totals. -/
def coreAt (s : CTxMemPool) (h : Uint256) : Option CTxMemPoolEntry :=
  (s.mapTx.lookup h).map CTxMemPoolEntry.core

/-- The transaction of the pool with the hash `h`. -/
def txAt (s : CTxMemPool) (h : Uint256) : Option CTransaction :=
  (s.mapTx.lookup h).map CTxMemPoolEntry.tx

theorem txAt_eq (s : CTxMemPool) (h : Uint256) :
    s.txAt h = (s.coreAt h).map CTxMemPoolEntry.tx := by
  rw [txAt, coreAt, Option.map_map]
  rfl

/-- Only links, totals and memory usage differ. -/
structure Frame (s s' : CTxMemPool) : Prop where
  core : s'.coreAt = s.coreAt
  next : s'.mapNextTx = s.mapNextTx
  deltas : s'.mapDeltas = s.mapDeltas
  coins : s'.coins = s.coins

variable {mu : MemUsage} {s s' t : CTxMemPool}

theorem Frame.refl (s : CTxMemPool) : Frame s s := ⟨rfl, rfl, rfl, rfl⟩

theorem Frame.trans (h : Frame s t) (h' : Frame t s') : Frame s s' :=
  ⟨h'.core.trans h.core, h'.next.trans h.next, h'.deltas.trans h.deltas, h'.coins.trans h.coins⟩

theorem Frame.txAt (h : Frame s s') : s'.txAt = s.txAt := by
  funext x
  rw [txAt_eq, txAt_eq, h.core]

variable (mu) in
theorem frame_updateChild (s : CTxMemPool) (x c : Uint256) (add : Bool) :
    Frame s (s.updateChild mu x c add) := by
  cases add with
  | false => exact ⟨rfl, rfl, rfl, rfl⟩
  | true => exact ⟨rfl, rfl, rfl, rfl⟩

variable (mu) in
theorem frame_updateParent (s : CTxMemPool) (x p : Uint256) (add : Bool) :
    Frame s (s.updateParent mu x p add) := by
  cases add with
  | false => exact ⟨rfl, rfl, rfl, rfl⟩
  | true => exact ⟨rfl, rfl, rfl, rfl⟩

/-- A loop of steps that leave the rest alone. -/
theorem frame_foldl {f : CTxMemPool → Uint256 → CTxMemPool} (hf : ∀ s x, Frame s (f s x)) :
    ∀ (l : List Uint256) (s : CTxMemPool), Frame s (l.foldl f s) := by
  intro l
  induction l with
  | nil => exact Frame.refl
  | cons x l ih =>
    intro s
    exact (hf s x).trans (ih (f s x))

theorem frame_foldlM {f : CTxMemPool → Uint256 → Option CTxMemPool}
    (hf : ∀ s x s', f s x = some s' → Frame s s') {l : List Uint256}
    (h : l.foldlM f s = some s') : Frame s s' :=
  Runs.foldlM_inv (P := Frame s) (fun t x t' _ ht hstep => ht.trans (hf t x t' hstep))
    (Frame.refl s) h

theorem frame_modify {it : Uint256} {f : CTxMemPoolEntry → Option CTxMemPoolEntry}
    (hf : ∀ e e', f e = some e' → e'.core = e.core) (h : s.modify it f = some s') :
    Frame s s' := by
  simp only [modify, Option.bind_eq_bind, Option.bind_eq_some_iff] at h
  obtain ⟨e, he, e', he', h⟩ := h
  obtain rfl := Option.some.inj h
  refine ⟨?_, rfl, rfl, rfl⟩
  funext x
  unfold coreAt
  by_cases hx : x = it
  · subst hx
    rw [AList.lookup_insert, he]
    exact congrArg some (hf e e' he')
  · rw [AList.lookup_insert_ne hx]

theorem frame_updateAncestorsOf {add : Bool} {it : Uint256} {l : SetEntries}
    (h : s.updateAncestorsOf mu add it l = some s') : Frame s s' := by
  simp only [updateAncestorsOf, Option.bind_eq_bind, Option.bind_eq_some_iff] at h
  obtain ⟨ps, -, e, -, h⟩ := h
  have hlinks := frame_foldl (fun s x => frame_updateChild mu s x it add) ps s
  exact hlinks.trans (frame_foldlM (fun s x s' => frame_modify
    fun e e' => CTxMemPoolEntry.core_updateState) h)

theorem frame_updateChildrenForRemoval {it : Uint256}
    (h : s.updateChildrenForRemoval mu it = some s') : Frame s s' := by
  simp only [updateChildrenForRemoval, Option.bind_eq_bind, Option.bind_eq_some_iff] at h
  obtain ⟨cs, -, h⟩ := h
  obtain rfl := Option.some.inj h
  exact frame_foldl (fun s x => frame_updateParent mu s x it false) cs s

theorem frame_updateForRemoveFromMempool {l : SetEntries}
    (h : s.updateForRemoveFromMempool mu l = some s') : Frame s s' := by
  simp only [updateForRemoveFromMempool, Option.bind_eq_bind, Option.bind_eq_some_iff] at h
  obtain ⟨s₁, h₁, h₂⟩ := h
  refine (frame_foldlM (fun s x s' hx => ?_) h₁).trans
    (frame_foldlM (fun s x s' => frame_updateChildrenForRemoval) h₂)
  simp only [updateAncestorsForRemoval, Option.bind_eq_bind, Option.bind_eq_some_iff] at hx
  obtain ⟨e, -, r, -, hx⟩ := hx
  exact frame_updateAncestorsOf hx

/-! ## What all operations keep -/

/-- A property that the edits of the pool keep: the bookkeeping, the removal of one entry,
another fee delta of an entry, and changes of `mapDeltas` and of the coins. -/
structure Stable (mu : MemUsage) (P : CTxMemPool → Prop) : Prop where
  frame : ∀ {s s'}, P s → Frame s s' → P s'
  removeUnchecked : ∀ {s s' it}, P s → s.removeUnchecked mu it = some s' → P s'
  updateFeeDelta : ∀ {s : CTxMemPool} {it e}, P s → s.mapTx.lookup it = some e → ∀ delta,
    P { s with mapTx := s.mapTx.insert it (e.updateFeeDelta delta) }
  other : ∀ {s : CTxMemPool}, P s → ∀ deltas coins, P { s with mapDeltas := deltas, coins := coins }
  clear : ∀ {s : CTxMemPool}, P s → P s.clear

namespace Stable

variable {P : CTxMemPool → Prop} (hP : Stable mu P)

include hP

theorem removeStaged (h : P s) {stage : SetEntries} (hr : s.removeStaged mu stage = some s') :
    P s' := by
  simp only [CTxMemPool.removeStaged, Option.bind_eq_bind, Option.bind_eq_some_iff] at hr
  obtain ⟨s₁, h₁, h₂⟩ := hr
  exact Runs.foldlM_inv (P := P) (fun t x t' _ ht hx => hP.removeUnchecked ht hx)
    (hP.frame h (frame_updateForRemoveFromMempool h₁)) h₂

theorem remove (h : P s) {tx : CTransaction} {rec : Bool} {r : List CTransaction × CTxMemPool}
    (hr : s.remove mu tx rec = some r) : P r.2 := by
  simp only [CTxMemPool.remove, Option.bind_eq_bind, Option.bind_eq_some_iff] at hr
  obtain ⟨_, -, _, -, s₁, h₁, hr⟩ := hr
  obtain rfl := Option.some.inj hr
  exact hP.removeStaged h h₁

theorem removeConflicts (h : P s) {tx : CTransaction} {r : List CTransaction × CTxMemPool}
    (hr : s.removeConflicts mu tx = some r) : P r.2 := by
  refine Runs.foldlM_inv (P := fun acc => P acc.2) (fun acc o acc' _ hacc ho => ?_) h hr
  unfold removeConflict at ho
  cases hl : acc.2.mapNextTx.lookup o with
  | none =>
    rw [hl] at ho
    obtain rfl := Option.some.inj ho
    exact hacc
  | some p =>
    rw [hl] at ho
    simp only at ho
    by_cases hp : p.ptx.hash = tx.hash
    · rw [if_pos hp] at ho
      obtain rfl := Option.some.inj ho
      exact hacc
    · rw [if_neg hp] at ho
      obtain ⟨q, hq, ho⟩ := Option.bind_eq_some_iff.mp ho
      obtain rfl := Option.some.inj ho
      exact hP.other (hP.remove hacc hq) _ q.2.coins

theorem removeForBlock (h : P s) {usage : CCoins → ℕ} {vtx : List CTransaction}
    {cursor : Option CCoinsViewCache} {r : List CTransaction × CTxMemPool}
    (hr : s.removeForBlock usage mu vtx cursor = some r) : P r.2 := by
  simp only [CTxMemPool.removeForBlock, Option.bind_eq_bind, Option.bind_eq_some_iff] at hr
  obtain ⟨q, hq, hr⟩ := hr
  have hloop : P q.2 := by
    refine Runs.foldlM_inv (P := fun acc => P acc.2) (fun acc tx acc' _ hacc ho => ?_) h hq
    simp only [removeBlockTx, Option.bind_eq_bind, Option.bind_eq_some_iff] at ho
    obtain ⟨q, hq, q', hq', ho⟩ := ho
    obtain rfl := Option.some.inj ho
    exact hP.other (hP.removeConflicts (hP.remove hacc hq) hq') _ q'.2.coins
  cases cursor with
  | none =>
    obtain rfl := Option.some.inj hr
    exact hloop
  | some v =>
    obtain rfl := Option.some.inj hr
    exact hP.other hloop q.2.mapDeltas _

theorem removeForReorg (h : P s) {usage : CCoins → ℕ} {nMemPoolHeight : ℤ}
    {final : CTransaction → Bool}
    (hr : s.removeForReorg usage mu nMemPoolHeight final = some s') : P s' := by
  simp only [CTxMemPool.removeForReorg] at hr
  refine Runs.foldlM_inv (P := P) (fun t tx t' _ ht htx => ?_) (hP.other h s.mapDeltas _) hr
  obtain ⟨q, hq, rfl⟩ := Option.map_eq_some_iff.mp htx
  exact hP.remove ht hq

theorem trim {lowest : CTxMemPool → Option Uint256} {sizelimit : ℕ} :
    ∀ {fuel : ℕ} {l : List Uint256} {s : CTxMemPool} {r : List Uint256 × CTxMemPool},
    P s → CTxMemPool.trim mu lowest sizelimit fuel l s = some r → P r.2 := by
  intro fuel
  induction fuel with
  | zero =>
    intro l s r h hr
    rw [CTxMemPool.trim] at hr
    split at hr
    · cases hr
    · obtain rfl := Option.some.inj hr
      exact h
  | succ fuel ih =>
    intro l s r h hr
    rw [CTxMemPool.trim] at hr
    split at hr
    · simp only [Option.bind_eq_bind, Option.bind_eq_some_iff] at hr
      obtain ⟨_, -, _, -, _, -, s₁, h₁, hr⟩ := hr
      exact ih (hP.removeStaged h h₁) hr
    · obtain rfl := Option.some.inj hr
      exact h

theorem prioritiseTransaction (h : P s) {hash : Uint256} {nFeeDelta : ℤ}
    (hr : s.prioritiseTransaction hash nFeeDelta = some s') : P s' := by
  unfold CTxMemPool.prioritiseTransaction at hr
  simp only at hr
  split at hr
  · obtain rfl := Option.some.inj hr
    exact hP.other h _ s.coins
  · simp only [Option.bind_eq_bind, Option.bind_eq_some_iff] at hr
    obtain ⟨s₁, h₁, e, -, q, -, hr⟩ := hr
    refine hP.frame ?_ (frame_foldlM (fun s x s' => frame_modify
      fun e e' => CTxMemPoolEntry.core_updateState) hr)
    simp only [modify, Option.bind_eq_bind, Option.bind_eq_some_iff] at h₁
    obtain ⟨e₀, he₀, e₁, he₁, h₁⟩ := h₁
    obtain rfl := Option.some.inj h₁
    obtain rfl := Option.some.inj he₁
    exact hP.other (hP.updateFeeDelta h he₀ _) _ s.coins

/-- **The rule for all operations but `insertTx`.** -/
theorem step (h : P s) {usage : CCoins → ℕ} {lowest : CTxMemPool → Option Uint256}
    {op : PoolOp} (hop : ∀ entry, op ≠ .insertTx entry)
    (hs : s.step usage mu lowest op = some s') : P s' := by
  cases op with
  | insertTx entry => exact absurd rfl (hop entry)
  | remove tx =>
    obtain ⟨r, hr, rfl⟩ := Option.map_eq_some_iff.mp hs
    exact hP.remove h hr
  | removeForBlock vtx cursor =>
    obtain ⟨r, hr, rfl⟩ := Option.map_eq_some_iff.mp hs
    exact hP.removeForBlock h hr
  | connectBlock vtx nHeight hashBlock =>
    obtain ⟨r, hr, rfl⟩ := Option.map_eq_some_iff.mp hs
    unfold connectBlock at hr
    split at hr
    · exact hP.removeForBlock h hr
    · obtain rfl := Option.some.inj hr
      exact hP.other h s.mapDeltas _
  | removeConflicts tx =>
    obtain ⟨r, hr, rfl⟩ := Option.map_eq_some_iff.mp hs
    exact hP.removeConflicts h hr
  | removeForReorg nMemPoolHeight final => exact hP.removeForReorg h hs
  | expire time =>
    obtain ⟨r, hr, rfl⟩ := Option.map_eq_some_iff.mp hs
    simp only [expire, Option.bind_eq_bind, Option.bind_eq_some_iff] at hr
    obtain ⟨_, -, s₁, h₁, hr⟩ := hr
    obtain rfl := Option.some.inj hr
    exact hP.removeStaged h h₁
  | trimToSize sizelimit =>
    obtain ⟨r, hr, rfl⟩ := Option.map_eq_some_iff.mp hs
    exact hP.trim h hr
  | prioritiseTransaction hash nFeeDelta => exact hP.prioritiseTransaction h hs
  | clear =>
    obtain rfl := Option.some.inj hs
    exact hP.clear h

end Stable

/-! ## The index of spent outpoints -/

/-- `mapNextTx` and the transactions of the pool fit together. -/
structure NextExact (s : CTxMemPool) : Prop where
  hash : ∀ h tx, s.txAt h = some tx → tx.hash = h
  nodup : ∀ h tx, s.txAt h = some tx → tx.prevouts.Nodup
  next : ∀ o p, s.mapNextTx.lookup o = some p ↔
    s.txAt p.ptx.hash = some p.ptx ∧ p.ptx.prevouts[p.n]? = some o

theorem NextExact.of_eq (h : NextExact s) (htx : s'.txAt = s.txAt)
    (hnext : s'.mapNextTx = s.mapNextTx) : NextExact s' := by
  obtain ⟨hhash, hnodup, hexact⟩ := h
  rw [← htx] at hhash hnodup hexact
  rw [← hnext] at hexact
  exact ⟨hhash, hnodup, hexact⟩

theorem NextExact.frame (h : NextExact s) (hf : Frame s s') : NextExact s' :=
  h.of_eq hf.txAt hf.next

theorem lookup_foldl_erase {m : AList fun _ : COutPoint => CInPoint} {o : COutPoint} :
    ∀ {l : List COutPoint}, (l.foldl (fun m o => m.erase o) m).lookup o
      = if o ∈ l then none else m.lookup o := by
  intro l
  induction l generalizing m with
  | nil => simp
  | cons x l ih =>
    rw [List.foldl_cons, ih]
    by_cases ho : o ∈ l
    · rw [if_pos ho, if_pos (by simp [ho])]
    · rw [if_neg ho]
      by_cases hx : o = x
      · subst hx
        rw [if_pos (by simp), AList.lookup_erase]
      · rw [if_neg (by simp [hx, ho]), AList.lookup_erase_ne hx]

/-- One transaction less. -/
theorem txAt_removeUnchecked {it : Uint256} (h : s.removeUnchecked mu it = some s')
    (x : Uint256) : s'.txAt x = if x = it then none else s.txAt x := by
  simp only [removeUnchecked, Option.bind_eq_bind, Option.bind_eq_some_iff] at h
  obtain ⟨e, -, h⟩ := h
  obtain rfl := Option.some.inj h
  unfold txAt
  by_cases hx : x = it
  · subst hx
    rw [if_pos rfl, AList.lookup_erase]
    rfl
  · rw [if_neg hx, AList.lookup_erase_ne hx]

theorem NextExact.removeUnchecked (h : NextExact s) {it : Uint256}
    (hr : s.removeUnchecked mu it = some s') : NextExact s' := by
  have htx := txAt_removeUnchecked hr
  have hsub : ∀ x tx, s'.txAt x = some tx → x ≠ it ∧ s.txAt x = some tx := by
    intro x tx hx
    rw [htx] at hx
    by_cases hxit : x = it
    · rw [if_pos hxit] at hx
      cases hx
    · rw [if_neg hxit] at hx
      exact ⟨hxit, hx⟩
  simp only [CTxMemPool.removeUnchecked, Option.bind_eq_bind, Option.bind_eq_some_iff] at hr
  obtain ⟨e, he, hr⟩ := hr
  have hit : s.txAt it = some e.tx := by rw [txAt, he]; rfl
  have hnext : s'.mapNextTx = e.tx.prevouts.foldl (fun m o => m.erase o) s.mapNextTx := by
    rw [← Option.some.inj hr]
  refine ⟨fun x tx hx => h.hash x tx (hsub x tx hx).2,
    fun x tx hx => h.nodup x tx (hsub x tx hx).2, fun o p => ?_⟩
  rw [hnext, lookup_foldl_erase]
  by_cases ho : o ∈ e.tx.prevouts
  · -- the outpoint was spent by the transaction that is gone
    rw [if_pos ho]
    obtain ⟨i, hi⟩ := List.mem_iff_getElem?.mp ho
    have hhash := h.hash it e.tx hit
    have hold : s.mapNextTx.lookup o = some ⟨e.tx, i⟩ := by
      rw [h.next]
      exact ⟨by rw [hhash]; exact hit, hi⟩
    constructor
    · intro hc
      cases hc
    · rintro ⟨hp, hpo⟩
      obtain ⟨hne, hp⟩ := hsub _ _ hp
      have hp' := (h.next o p).mpr ⟨hp, hpo⟩
      rw [hold] at hp'
      obtain rfl := Option.some.inj hp'
      exact absurd hhash hne
  · rw [if_neg ho, h.next]
    constructor
    · rintro ⟨hp, hpo⟩
      refine ⟨?_, hpo⟩
      rw [htx, if_neg, hp]
      intro heq
      rw [heq, hit] at hp
      rw [← Option.some.inj hp] at hpo
      exact ho (List.mem_of_getElem? hpo)
    · rintro ⟨hp, hpo⟩
      exact ⟨(hsub _ _ hp).2, hpo⟩

theorem nextExact_clear (s : CTxMemPool) : NextExact s.clear := by
  refine ⟨fun x tx hx => ?_, fun x tx hx => ?_, fun o p => ?_⟩
  · cases hx
  · cases hx
  · exact ⟨fun hp => (by cases hp), fun hp => (by cases hp.1)⟩

/-- `mapNextTx` stays exact. -/
theorem stable_nextExact (mu : MemUsage) : Stable mu NextExact where
  frame h hf := h.frame hf
  removeUnchecked h hr := h.removeUnchecked hr
  updateFeeDelta := by
    intro s it e h he delta
    refine h.of_eq ?_ rfl
    funext x
    unfold txAt
    by_cases hx : x = it
    · subst hx
      rw [AList.lookup_insert, he]
      rfl
    · rw [AList.lookup_insert_ne hx]
  other h _ _ := h.of_eq rfl rfl
  clear _ := nextExact_clear _

/-! ## Insertion -/

variable {usage : CCoins → ℕ}

/-- The loop over the inputs changes the pool only by what it reads into the cache. -/
theorem checkInputs_spec : ∀ {ps : List COutPoint} {s s' : CTxMemPool} {r : Except String Bool},
    s.checkInputs usage ps = (r, s') →
    (∃ view, s' = { s with coins := view } ∧ (s.coins.Wf → view.Wf) ∧
      view.value = s.coins.value) ∧
    (r = .ok true → ∀ o ∈ ps, s.mapNextTx.lookup o = none) ∧
    (∀ e, r = .error e → ∃ o ∈ ps, s.mapNextTx.lookup o ≠ none) := by
  intro ps
  induction ps with
  | nil =>
    intro s s' r h
    rw [checkInputs] at h
    obtain ⟨rfl, rfl⟩ := Prod.mk.inj h
    exact ⟨⟨s.coins, rfl, id, rfl⟩, by simp, by simp⟩
  | cons o ps ih =>
    intro s s' r h
    rw [checkInputs] at h
    by_cases hspent : (s.mapNextTx.lookup o).isSome = true
    · rw [if_pos hspent] at h
      obtain ⟨rfl, rfl⟩ := Prod.mk.inj h
      refine ⟨⟨s.coins, rfl, id, rfl⟩, by simp, fun e _ => ⟨o, by simp, ?_⟩⟩
      exact Option.isSome_iff_ne_none.mp hspent
    · rw [if_neg hspent] at h
      have hnone : s.mapNextTx.lookup o = none := by simpa using hspent
      -- what the rest of the loop says, about the same `mapNextTx`
      have hrest : ∀ {t : CTxMemPool}, t.checkInputs usage ps = (r, s') →
          t.mapNextTx = s.mapNextTx →
          (r = .ok true → ∀ o' ∈ o :: ps, s.mapNextTx.lookup o' = none) ∧
          (∀ e, r = .error e → ∃ o' ∈ o :: ps, s.mapNextTx.lookup o' ≠ none) := by
        intro t hrun ht
        obtain ⟨-, hok, herr⟩ := ih hrun
        rw [ht] at hok herr
        refine ⟨fun hr o' ho' => ?_, fun e he => ?_⟩
        · rcases List.mem_cons.mp ho' with rfl | ho'
          · exact hnone
          · exact hok hr o' ho'
        · obtain ⟨o', ho', hne⟩ := herr e he
          exact ⟨o', by simp [ho'], hne⟩
      simp only at h
      split at h
      · exact ⟨(ih h).1, hrest h rfl⟩
      · have hval := funext fun t => CCoinsView.value_getCoins usage s.coins o.hash t
        have hwf : s.coins.Wf → (s.coins.getCoins usage o.hash).2.Wf := fun hw => hw.getCoins usage _
        split at h
        · obtain ⟨⟨view, hs', hvwf, hvval⟩, -⟩ := ih h
          exact ⟨⟨view, hs', fun hw => hvwf (hwf hw), hvval.trans hval⟩, hrest h rfl⟩
        · obtain ⟨rfl, rfl⟩ := Prod.mk.inj h
          exact ⟨⟨_, rfl, hwf, hval⟩, by simp, by simp⟩

theorem lookup_foldl_insert {tx : CTransaction} {o : COutPoint} {p : CInPoint} :
    ∀ {l : List COutPoint} {k : ℕ} {m : AList fun _ : COutPoint => CInPoint}, l.Nodup →
    (((l.zipIdx k).foldl (fun m (oi : COutPoint × ℕ) => m.insert oi.1 ⟨tx, oi.2⟩) m).lookup o
        = some p ↔
      (∃ i, l[i]? = some o ∧ p = ⟨tx, k + i⟩) ∨ (o ∉ l ∧ m.lookup o = some p)) := by
  intro l
  induction l with
  | nil => simp
  | cons x l ih =>
    intro k m hnd
    obtain ⟨hx, hnd⟩ := List.nodup_cons.mp hnd
    rw [List.zipIdx_cons, List.foldl_cons, ih hnd]
    constructor
    · rintro (⟨i, hi, rfl⟩ | ⟨ho, hp⟩)
      · exact .inl ⟨i + 1, by simpa using hi, by congr 1; omega⟩
      · by_cases hox : o = x
        · subst hox
          rw [AList.lookup_insert] at hp
          exact .inl ⟨0, rfl, (Option.some.inj hp).symm⟩
        · rw [AList.lookup_insert_ne hox] at hp
          exact .inr ⟨by simp [hox, ho], hp⟩
    · rintro (⟨i, hi, rfl⟩ | ⟨ho, hp⟩)
      · cases i with
        | zero =>
          obtain rfl : x = o := by simpa using hi
          exact .inr ⟨hx, AList.lookup_insert _⟩
        | succ i => exact .inl ⟨i, by simpa using hi, by congr 1; omega⟩
      · rw [List.mem_cons, not_or] at ho
        exact .inr ⟨ho.2, by rw [AList.lookup_insert_ne ho.1]; exact hp⟩

theorem tx_withDelta (e : CTxMemPoolEntry) (delta : ℤ) : (e.withDelta delta).tx = e.tx := by
  unfold CTxMemPoolEntry.withDelta
  split
  · rfl
  · rfl

variable (mu) in
theorem frame_setParents (s : CTxMemPool) (x : Uint256) (l : List Uint256) :
    Frame s (s.setParents mu x l) := by
  refine frame_foldl (fun t p => ?_) l s
  split
  · exact frame_updateParent mu t x p true
  · exact Frame.refl t

/-- What `addUnchecked` puts into the pool. -/
theorem addUnchecked_frame {hash : Uint256} {entry : CTxMemPoolEntry} {l : SetEntries}
    (h : s.addUnchecked mu hash entry l = some s') :
    (∀ x, s'.coreAt x = if x = hash then
      some (entry.withDelta ((s.mapDeltas.lookup hash).getD 0)).core else s.coreAt x) ∧
      s'.mapNextTx = setNextTx entry.tx s.mapNextTx ∧ s'.mapDeltas = s.mapDeltas ∧
      s'.coins = s.coins := by
  simp only [addUnchecked, Option.bind_eq_bind, Option.bind_eq_some_iff] at h
  obtain ⟨s₁, h₁, h⟩ := h
  obtain rfl := Option.some.inj h
  have hframe : Frame (s.putEntry hash entry) s₁ :=
    (frame_setParents mu _ hash _).trans (frame_updateAncestorsOf h₁)
  refine ⟨fun x => ?_, hframe.next, hframe.deltas, hframe.coins⟩
  refine Eq.trans (congrFun hframe.core x) ?_
  unfold coreAt putEntry
  by_cases hx : x = hash
  · subst hx
    rw [if_pos rfl, AList.lookup_insert]
    rfl
  · rw [if_neg hx, AList.lookup_insert_ne hx]

/-- `s'` has the transaction `tx` besides those of `s`. -/
abbrev TxAdded (s : CTxMemPool) (tx : CTransaction) (s' : CTxMemPool) : Prop :=
  ∀ x, s'.txAt x = if x = tx.hash then some tx else s.txAt x

theorem TxAdded.cases {tx tx' : CTransaction} (h : TxAdded s tx s') {x : Uint256}
    (hx : s'.txAt x = some tx') :
    (x = tx.hash ∧ tx' = tx) ∨ (x ≠ tx.hash ∧ s.txAt x = some tx') := by
  rw [h] at hx
  by_cases hxe : x = tx.hash
  · rw [if_pos hxe] at hx
    exact .inl ⟨hxe, (Option.some.inj hx).symm⟩
  · rw [if_neg hxe] at hx
    exact .inr ⟨hxe, hx⟩

theorem txAdded_of_core {entry : CTxMemPoolEntry} {delta : ℤ}
    (h : ∀ x, s'.coreAt x
      = if x = entry.tx.hash then some (entry.withDelta delta).core else s.coreAt x) :
    TxAdded s entry.tx s' := by
  intro x
  rw [txAt_eq, h]
  split
  · exact congrArg some (tx_withDelta entry _)
  · exact (txAt_eq s x).symm

/-- One more transaction, and its outpoints in `mapNextTx`. -/
theorem NextExact.insert (h : NextExact s) {tx : CTransaction} (habsent : s.txAt tx.hash = none)
    (hnodup : tx.prevouts.Nodup) (hfree : ∀ o ∈ tx.prevouts, s.mapNextTx.lookup o = none)
    (htx : TxAdded s tx s') (hnext : s'.mapNextTx = setNextTx tx s.mapNextTx) :
    NextExact s' := by
  refine ⟨fun x tx hx => ?_, fun x tx hx => ?_, fun o p => ?_⟩
  · rcases htx.cases hx with ⟨rfl, rfl⟩ | ⟨-, hx⟩
    · rfl
    · exact h.hash x _ hx
  · rcases htx.cases hx with ⟨rfl, rfl⟩ | ⟨-, hx⟩
    · exact hnodup
    · exact h.nodup x _ hx
  · rw [hnext, setNextTx, lookup_foldl_insert hnodup]
    constructor
    · rintro (⟨i, hi, rfl⟩ | ⟨-, hp⟩)
      · rw [htx, if_pos rfl, Nat.zero_add]
        exact ⟨rfl, hi⟩
      · obtain ⟨hp, hpo⟩ := (h.next o p).mp hp
        refine ⟨?_, hpo⟩
        rw [htx, if_neg, hp]
        intro heq
        rw [heq, habsent] at hp
        cases hp
    · rintro ⟨hp, hpo⟩
      rcases htx.cases hp with ⟨-, hpe⟩ | ⟨-, hp⟩
      · left
        rw [hpe] at hpo
        refine ⟨p.n, hpo, ?_⟩
        rw [← hpe, Nat.zero_add]
      · right
        have hold := (h.next o p).mpr ⟨hp, hpo⟩
        refine ⟨fun ho => ?_, hold⟩
        rw [hfree o ho] at hold
        cases hold

theorem NextExact.insertTx (h : NextExact s) {entry : CTxMemPoolEntry}
    (hnodup : entry.tx.prevouts.Nodup) {r : Except String Bool × CTxMemPool}
    (hr : s.insertTx usage mu entry = some r) : NextExact r.2 := by
  unfold CTxMemPool.insertTx at hr
  by_cases hex : s.hasTx entry.tx.hash = true
  · rw [if_pos hex] at hr
    obtain rfl := Option.some.inj hr
    exact h
  · rw [if_neg hex] at hr
    have habsent : s.txAt entry.tx.hash = none := by
      rw [txAt, Option.map_eq_none_iff]
      simpa [hasTx] using hex
    cases hc : s.checkInputs usage entry.tx.prevouts with
    | mk res s₁ =>
      obtain ⟨⟨view, rfl, -, -⟩, hok, -⟩ := checkInputs_spec hc
      have h₁ : NextExact { s with coins := view } := h.of_eq rfl rfl
      rw [hc] at hr
      match res, hok with
      | .error e, _ =>
        obtain rfl := Option.some.inj hr
        exact h₁
      | .ok false, _ =>
        obtain rfl := Option.some.inj hr
        exact h₁
      | .ok true, hok =>
        simp only [Option.bind_eq_bind, Option.bind_eq_some_iff] at hr
        obtain ⟨q, -, s₂, h₂, hr⟩ := hr
        obtain rfl := Option.some.inj hr
        obtain ⟨hcore, hnext, -, -⟩ := addUnchecked_frame h₂
        exact h₁.insert habsent hnodup (hok rfl) (txAdded_of_core hcore) hnext

/-! ## All operations -/

end CTxMemPool

/-- An entry that is inserted has passed `Validation::checkTransaction`. -/
def PoolOp.Checked : PoolOp → Prop
  | .insertTx entry => Validation.checkTransaction entry.tx = .ok ()
  | _ => True

instance : ∀ op : PoolOp, Decidable op.Checked
  | .insertTx entry => inferInstanceAs (Decidable (Validation.checkTransaction entry.tx = .ok ()))
  | .remove _ | .removeForBlock _ _ | .connectBlock _ _ _ | .removeConflicts _
  | .removeForReorg _ _ | .expire _ | .trimToSize _ | .prioritiseTransaction _ _
  | .clear => .isTrue trivial

namespace CTxMemPool

variable {usage : CCoins → ℕ} {mu : MemUsage} {lowest : CTxMemPool → Option Uint256}
  {s s' : CTxMemPool}

/-- A step keeps `mapNextTx` exact. -/
theorem NextExact.step (h : NextExact s) {op : PoolOp} (hop : op.Checked)
    (hs : s.step usage mu lowest op = some s') : NextExact s' := by
  by_cases hinsert : ∃ entry, op = .insertTx entry
  · obtain ⟨entry, rfl⟩ := hinsert
    obtain ⟨r, hr, rfl⟩ := Option.map_eq_some_iff.mp hs
    exact h.insertTx (Validation.of_checkTransaction hop).2 hr
  · exact (stable_nextExact mu).step h (fun entry he => hinsert ⟨entry, he⟩) hs

theorem nextExact_empty (coins : CCoinsView) : NextExact (empty coins) :=
  (nextExact_clear (empty coins)).of_eq rfl rfl

/-- `mapNextTx` is the function from the spent outpoints to the input that spends them; no
outpoint is spent twice; and if `insertTx` throws, then a transaction of the pool spends
one of the inputs. -/
structure ConflictFree (s : CTxMemPool) : Prop where
  exact : ∀ o p, s.mapNextTx.lookup o = some p ↔
    ∃ h, s.txAt h = some p.ptx ∧ p.ptx.prevouts[p.n]? = some o
  distinct : ∀ h h' tx tx' o, s.txAt h = some tx → s.txAt h' = some tx' → o ∈ tx.prevouts →
    o ∈ tx'.prevouts → h = h'
  blocked : ∀ usage mu entry e s', s.insertTx usage mu entry = some (.error e, s') →
    ∃ h tx, s.txAt h = some tx ∧ ∃ o ∈ entry.tx.prevouts, o ∈ tx.prevouts

theorem NextExact.spender (h : NextExact s) {x : Uint256} {tx : CTransaction} {o : COutPoint}
    (hx : s.txAt x = some tx) (ho : o ∈ tx.prevouts) :
    ∃ i, s.mapNextTx.lookup o = some ⟨tx, i⟩ := by
  obtain ⟨i, hi⟩ := List.mem_iff_getElem?.mp ho
  refine ⟨i, (h.next o ⟨tx, i⟩).mpr ⟨?_, hi⟩⟩
  rw [h.hash x tx hx]
  exact hx

theorem NextExact.conflictFree (h : NextExact s) : ConflictFree s where
  exact o p := by
    rw [h.next]
    constructor
    · rintro ⟨hp, hpo⟩
      exact ⟨_, hp, hpo⟩
    · rintro ⟨x, hp, hpo⟩
      exact ⟨by rw [h.hash x _ hp]; exact hp, hpo⟩
  distinct := by
    intro x x' tx tx' o hx hx' ho ho'
    obtain ⟨i, hi⟩ := h.spender hx ho
    obtain ⟨i', hi'⟩ := h.spender hx' ho'
    rw [hi] at hi'
    obtain ⟨rfl, -⟩ := CInPoint.mk.inj (Option.some.inj hi')
    exact (h.hash x tx hx).symm.trans (h.hash x' tx hx')
  blocked := by
    intro usage mu entry e s' hr
    unfold CTxMemPool.insertTx at hr
    split at hr
    · cases hr
    · cases hc : s.checkInputs usage entry.tx.prevouts with
      | mk res s₁ =>
        obtain ⟨-, -, herr⟩ := checkInputs_spec hc
        rw [hc] at hr
        match res, herr with
        | .ok false, _ => cases hr
        | .ok true, _ =>
          simp only [Option.bind_eq_bind, Option.bind_eq_some_iff] at hr
          obtain ⟨_, -, _, -, hr⟩ := hr
          cases hr
        | .error e', herr =>
          obtain ⟨o, ho, hne⟩ := herr e' rfl
          obtain ⟨p, hp⟩ := Option.ne_none_iff_exists'.mp hne
          obtain ⟨hp, hpo⟩ := (h.next o p).mp hp
          exact ⟨_, _, hp, o, ho, List.mem_of_getElem? hpo⟩

/-- **No conflicts.**  Any run of operations from an empty pool, over any coins, leaves
`mapNextTx` exact, provided that what is inserted has passed
`Validation::checkTransaction`. -/
theorem conflictFree_of_run (usage : CCoins → ℕ) (mu : MemUsage)
    (lowest : CTxMemPool → Option Uint256) (coins : CCoinsView) (ops : List PoolOp)
    (hops : ∀ op ∈ ops, op.Checked) {s : CTxMemPool}
    (hrun : ops.foldlM (step usage mu lowest) (empty coins) = some s) : ConflictFree s :=
  (Runs.foldlM_inv (P := NextExact) (fun _ op _ hop h hs => h.step (hops op hop) hs)
    (nextExact_empty coins) hrun).conflictFree

/-- A cache over a database with one coin. -/
def oneCoin : CCoinsView :=
  .cache ⟨∅, 0, 0⟩ (.db ⟨AList.insert 1 ⟨true, [⟨50, [0x51]⟩], 1, 1⟩ ∅, 0⟩)

/-- It spends the coin, and has an unspendable output, too. -/
def parentTx : CTransaction := ⟨2, 1, [⟨⟨1, 0⟩, [], 0⟩], [⟨40, [0x51]⟩, ⟨0, [0x6a]⟩], 0⟩

/-- It spends an output of `parentTx`. -/
def childTx : CTransaction := ⟨3, 1, [⟨⟨2, 0⟩, [], 0⟩], [⟨30, [0x51]⟩], 0⟩

/-- It spends the same coin as `parentTx`. -/
def rivalTx : CTransaction := ⟨4, 1, [⟨⟨1, 0⟩, [], 0⟩], [⟨45, [0x51]⟩], 0⟩

/-- The rival is refused at first, and accepted when the other two are gone. -/
def rivalRun : List PoolOp :=
  [.insertTx (.ofTx parentTx 0 1 10 true), .insertTx (.ofTx childTx 1 1 10 false),
    .insertTx (.ofTx rivalTx 2 1 5 true), .prioritiseTransaction 3 7, .trimToSize 100,
    .expire 0, .remove parentTx, .insertTx (.ofTx rivalTx 3 1 5 true)]

theorem conflictFree_of_run_rivalRun : ∃ s,
    rivalRun.foldlM (step (fun _ => 0) ⟨1, 1, 1, 1, 1⟩ fun s => s.mapTx.keys.head?)
      (empty oneCoin) = some s ∧ s.mapTx.keys = [4] ∧ ConflictFree s := by
  have hkeys : ((rivalRun.foldlM (step (fun _ => 0) ⟨1, 1, 1, 1, 1⟩ fun s => s.mapTx.keys.head?)
      (empty oneCoin)).map fun s => s.mapTx.keys) = some [4] := by decide +kernel
  obtain ⟨s, hs, hk⟩ := Option.map_eq_some_iff.mp hkeys
  exact ⟨s, hs, hk, conflictFree_of_run _ _ _ _ rivalRun (by decide) hs⟩

end CTxMemPool
