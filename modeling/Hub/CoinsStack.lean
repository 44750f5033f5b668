/-
# Stacks of coin caches

A stack of `CCoinsViewCache` objects over a database, with the operations that its users
have: reading and dropping entries at any level, flushing a level into the one below,
modifying coins at the top, and putting a new cache on top or taking one away.

The plain model of a stack has a full map at every level.  `refines_plain` says that the
flags of the caches cannot be seen: what is read at any level of the stack after any
operations is what the plain model has there.
-/
import Hub.CoinsView
import Hub.Runs

namespace CoinsStack

open CCoinsView

/-! ## Operations -/

/-- Levels are counted from the top.  An edit may look at the coins that `ModifyCoins`
hands out. -/
inductive CoinsOp where
  | getCoins (level : ℕ) (txid : Uint256)
  | haveCoins (level : ℕ) (txid : Uint256)
  | accessCoins (level : ℕ) (txid : Uint256)
  | modifyCoins (txid : Uint256) (edit : CCoins → CCoins)
  | uncache (level : ℕ) (txid : Uint256)
  | flush (level : ℕ)
  | push
  | pop

/-- An operation on the view at a level. -/
def atLevel (f : CCoinsView → Option CCoinsView) : ℕ → CCoinsView → Option CCoinsView
  | 0, v => f v
  | k + 1, .cache data base => (atLevel f k base).map (.cache data)
  | _ + 1, .db _ => none

/-- An operation that only caches have. -/
def onCache (f : CCoinsViewCache → CCoinsViewCache) : CCoinsView → Option CCoinsView
  | .cache data base => some (f ⟨data, base⟩).view
  | .db _ => none

def step (usage : CCoins → ℕ) (v : CCoinsView) : CoinsOp → Option CCoinsView
  | .getCoins k txid => atLevel (fun w => some (w.getCoins usage txid).2) k v
  | .haveCoins k txid => atLevel (fun w => some (w.haveCoins usage txid).2) k v
  | .accessCoins k txid => atLevel (onCache fun c => (c.accessCoins usage txid).2) k v
  | .modifyCoins txid edit =>
      onCache (fun c => (c.modifyCoins usage txid fun coins => ((), edit coins)).2) v
  | .uncache k txid => atLevel (onCache fun c => c.uncache usage txid) k v
  | .flush k => atLevel (onCache fun c => c.flush usage) k v
  | .push => some (CCoinsViewCache.create v).view
  | .pop => match v with
      | .cache _ base => some base
      | .db _ => none

/-- The operation can be called on a stack of `n` levels, the database included. -/
def Enabled (n : ℕ) : CoinsOp → Prop
  | .getCoins k _ | .haveCoins k _ => k < n
  | .accessCoins k _ | .uncache k _ | .flush k => k + 1 < n
  | .modifyCoins _ _ | .pop => 1 < n
  | .push => True

/-! ## The plain model -/

/-- A full map from transactions to their unspent coins. -/
abbrev PlainMap := Uint256 → Option CCoins

/-- The plain model: one map for each level.  The edit of `ModifyCoins` is given any
coins that stand for the value in the map: the value itself, or coins without unspent
outputs where there is none. -/
inductive PlainStep : List PlainMap → CoinsOp → List PlainMap → Prop where
  | getCoins (ms : List PlainMap) (k : ℕ) (txid : Uint256) :
      PlainStep ms (.getCoins k txid) ms
  | haveCoins (ms : List PlainMap) (k : ℕ) (txid : Uint256) :
      PlainStep ms (.haveCoins k txid) ms
  | accessCoins (ms : List PlainMap) (k : ℕ) (txid : Uint256) :
      PlainStep ms (.accessCoins k txid) ms
  | modifyCoins (m : PlainMap) (ms : List PlainMap) (txid : Uint256) (edit : CCoins → CCoins)
      (c : CCoins) (hc : CCoins.norm (some c) = m txid) :
      PlainStep (m :: ms) (.modifyCoins txid edit)
        (Function.update m txid (CCoins.norm (some (edit c).cleanup)) :: ms)
  | uncache (ms : List PlainMap) (k : ℕ) (txid : Uint256) : PlainStep ms (.uncache k txid) ms
  | flush (above below : List PlainMap) (child parent : PlainMap) :
      PlainStep (above ++ child :: parent :: below) (.flush above.length)
        (above ++ child :: child :: below)
  | push (m : PlainMap) (ms : List PlainMap) : PlainStep (m :: ms) .push (m :: m :: ms)
  | pop (m m' : PlainMap) (ms : List PlainMap) : PlainStep (m :: m' :: ms) .pop (m' :: ms)

/-- A run of the plain model. -/
inductive PlainRun : List PlainMap → List CoinsOp → List PlainMap → Prop where
  | nil (ms : List PlainMap) : PlainRun ms [] ms
  | cons {ms ms' ms'' : List PlainMap} {op : CoinsOp} {ops : List CoinsOp}
      (hstep : PlainStep ms op ms') (hrun : PlainRun ms' ops ms'') : PlainRun ms (op :: ops) ms''

/-! ## The simulation -/

variable {usage : CCoins → ℕ}

theorem values_eq_cons (v : CCoinsView) : ∃ rest, v.values = v.value :: rest := by
  cases v with
  | db d => exact ⟨[], rfl⟩
  | cache data base => exact ⟨base.values, rfl⟩

/-- What is done at a level, with `g` the effect on the values from there down. -/
theorem atLevel_spec {f : CCoinsView → Option CCoinsView} {g : List PlainMap → List PlainMap}
    (j : ℕ) (hf : ∀ w : CCoinsView, w.Wf → j < w.values.length →
      ∃ w', f w = some w' ∧ w'.Wf ∧ w'.value = w.value ∧ w'.values = g w.values) :
    ∀ (k : ℕ) (v : CCoinsView), v.Wf → k + j < v.values.length →
      ∃ v', atLevel f k v = some v' ∧ v'.Wf ∧ v'.value = v.value ∧
        v'.values = v.values.take k ++ g (v.values.drop k) := by
  intro k
  induction k with
  | zero =>
    intro v hv hlen
    obtain ⟨v', hrun, hwf, hval, hvals⟩ := hf v hv (by omega)
    exact ⟨v', hrun, hwf, hval, hvals⟩
  | succ k ih =>
    intro v hv hlen
    cases v with
    | db d =>
      simp only [values, List.length_singleton] at hlen
      omega
    | cache data base =>
      simp only [values, List.length_cons] at hlen
      obtain ⟨base', hrun, hwf, hval, hvals⟩ := ih base hv.1 (by omega)
      have htop : (cache data base').value = (cache data base).value := by
        funext t
        rw [value_cache, value_cache, hval]
      refine ⟨cache data base', ?_, ⟨hwf, fun t e he => ?_⟩, htop, ?_⟩
      · rw [atLevel, hrun]
        rfl
      · rw [hval]
        exact hv.2 t e he
      · rw [values, values, htop, hvals]
        rfl

/-- An operation that changes no value. -/
theorem atLevel_same {f : CCoinsView → Option CCoinsView} (j : ℕ)
    (hf : ∀ w : CCoinsView, w.Wf → j < w.values.length →
      ∃ w', f w = some w' ∧ w'.Wf ∧ w'.values = w.values)
    (k : ℕ) (v : CCoinsView) (hv : v.Wf) (hk : k + j < v.values.length) :
    ∃ v', atLevel f k v = some v' ∧ v'.Wf ∧ v'.values = v.values := by
  have hf' : ∀ w : CCoinsView, w.Wf → j < w.values.length →
      ∃ w', f w = some w' ∧ w'.Wf ∧ w'.value = w.value ∧ w'.values = id w.values := by
    intro w hw hj
    obtain ⟨w', hrun, hwf, hvals⟩ := hf w hw hj
    refine ⟨w', hrun, hwf, ?_, hvals⟩
    obtain ⟨rest, hrest⟩ := values_eq_cons w
    obtain ⟨rest', hrest'⟩ := values_eq_cons w'
    rw [hrest, hrest'] at hvals
    exact (List.cons.inj hvals).1
  obtain ⟨v', hrun, hwf, -, hvals⟩ := atLevel_spec j hf' k v hv hk
  refine ⟨v', hrun, hwf, ?_⟩
  rw [hvals, id, List.take_append_drop]

/-- On a stack with two levels, an operation for caches finds one. -/
theorem exists_cache {w : CCoinsView} (h : 1 < w.values.length) :
    ∃ c : CCoinsViewCache, w = c.view := by
  cases w with
  | db d => simp [values] at h
  | cache data base => exact ⟨⟨data, base⟩, rfl⟩

variable (usage) in
/-- **One operation.**  It can be carried out, and it does to the values what it does to
the plain model. -/
theorem step_spec {v : CCoinsView} (hv : v.Wf) {op : CoinsOp}
    (hop : Enabled v.values.length op) :
    ∃ v', step usage v op = some v' ∧ v'.Wf ∧ PlainStep v.values op v'.values := by
  cases op with
  | getCoins k txid =>
    obtain ⟨v', hrun, hwf, hvals⟩ := atLevel_same 0
      (f := fun w => some (w.getCoins usage txid).2)
      (fun w hw _ => ⟨_, rfl, hw.getCoins usage txid, values_getCoins usage w txid⟩) k v hv hop
    exact ⟨v', hrun, hwf, hvals ▸ .getCoins _ k txid⟩
  | haveCoins k txid =>
    have hsame : ∀ w : CCoinsView, (w.haveCoins usage txid).2 = (w.getCoins usage txid).2 := by
      intro w
      cases w with
      | db d => rfl
      | cache data base => rfl
    obtain ⟨v', hrun, hwf, hvals⟩ := atLevel_same 0
      (f := fun w => some (w.haveCoins usage txid).2)
      (fun w hw _ => ⟨_, rfl, by rw [hsame]; exact hw.getCoins usage txid,
        by rw [hsame]; exact values_getCoins usage w txid⟩) k v hv hop
    exact ⟨v', hrun, hwf, hvals ▸ .haveCoins _ k txid⟩
  | accessCoins k txid =>
    obtain ⟨v', hrun, hwf, hvals⟩ := atLevel_same 1
      (f := onCache fun c => (c.accessCoins usage txid).2)
      (fun w hw hlen => by
        obtain ⟨c, rfl⟩ := exists_cache hlen
        have hview : (c.accessCoins usage txid).2.view = (c.view.getCoins usage txid).2 :=
          congrArg Prod.snd (c.view_accessCoins usage txid)
        refine ⟨_, rfl, ?_, ?_⟩
        · exact hview ▸ hw.getCoins usage txid
        · exact hview ▸ values_getCoins usage c.view txid) k v hv hop
    exact ⟨v', hrun, hwf, hvals ▸ .accessCoins _ k txid⟩
  | modifyCoins txid edit =>
    obtain ⟨c, rfl⟩ := exists_cache hop
    obtain ⟨coins, hc, -, -, hval, hbase, hwf⟩ :=
      CCoinsViewCache.modifyCoins_spec usage hv txid (fun coins => ((), edit coins))
    refine ⟨_, rfl, hwf, ?_⟩
    have hvals : (c.modifyCoins usage txid fun coins => ((), edit coins)).2.view.values
        = Function.update c.view.value txid (CCoins.norm (some (edit coins).cleanup))
          :: c.base.values := by
      rw [← hbase, ← hval]
      rfl
    exact hvals ▸ .modifyCoins c.view.value c.base.values txid edit coins hc
  | uncache k txid =>
    obtain ⟨v', hrun, hwf, hvals⟩ := atLevel_same 1
      (f := onCache fun c => c.uncache usage txid)
      (fun w hw hlen => by
        obtain ⟨c, rfl⟩ := exists_cache hlen
        obtain ⟨hval, hbase, hwf⟩ := CCoinsViewCache.uncache_spec usage hw txid
        refine ⟨_, rfl, hwf, ?_⟩
        show (c.uncache usage txid).view.value :: (c.uncache usage txid).base.values = _
        rw [hval, hbase]
        rfl) k v hv hop
    exact ⟨v', hrun, hwf, hvals ▸ .uncache _ k txid⟩
  | flush k =>
    obtain ⟨v', hrun, hwf, -, hvals⟩ := atLevel_spec 1
      (f := onCache fun c => c.flush usage)
      (g := fun ms => ms.head?.toList ++ ms.head?.toList ++ ms.tail.tail)
      (fun w hw hlen => by
        obtain ⟨c, rfl⟩ := exists_cache hlen
        obtain ⟨hwf, hval, hbase, htail⟩ := CCoinsViewCache.flush_spec usage hw
        refine ⟨_, rfl, hwf, hval, ?_⟩
        obtain ⟨rest, hrest⟩ := values_eq_cons (c.flush usage).base
        show (c.flush usage).view.value :: (c.flush usage).base.values = _
        rw [hval, hrest, hbase]
        rw [hrest, List.tail_cons] at htail
        rw [htail]
        rfl) k v hv hop
    refine ⟨v', hrun, hwf, ?_⟩
    have hk : k < v.values.length := by
      simp only [Enabled] at hop
      omega
    cases hdrop : v.values.drop k with
    | nil =>
      have := congrArg List.length hdrop
      rw [List.length_drop, List.length_nil] at this
      omega
    | cons child rest =>
      cases rest with
      | nil =>
        have := congrArg List.length hdrop
        rw [List.length_drop, List.length_singleton] at this
        simp only [Enabled] at hop
        omega
      | cons parent below =>
        have hsplit : v.values = v.values.take k ++ child :: parent :: below := by
          rw [← hdrop, List.take_append_drop]
        have hlen : (v.values.take k).length = k := by
          rw [List.length_take]
          omega
        have hflush := PlainStep.flush (v.values.take k) below child parent
        rw [hlen, ← hsplit] at hflush
        rw [hdrop] at hvals
        rw [hvals]
        exact hflush
  | push =>
    obtain ⟨rest, hrest⟩ := values_eq_cons v
    have htop : (CCoinsViewCache.create v).view.value = v.value := by
      funext t
      exact value_cache_of_none (AList.lookup_empty t)
    refine ⟨_, rfl, ⟨hv, fun t e he => ?_⟩, ?_⟩
    · cases (AList.lookup_empty t).symm.trans he
    · show PlainStep v.values .push ((CCoinsViewCache.create v).view.value :: v.values)
      rw [htop, hrest]
      exact .push v.value rest
  | pop =>
    obtain ⟨c, rfl⟩ := exists_cache hop
    obtain ⟨rest, hrest⟩ := values_eq_cons c.base
    refine ⟨c.base, rfl, hv.1, ?_⟩
    show PlainStep (c.view.value :: c.base.values) .pop c.base.values
    rw [hrest]
    exact .pop _ _ rest

/-- The view at a level. -/
def level : ℕ → CCoinsView → Option CCoinsView
  | 0, v => some v
  | k + 1, .cache _ base => level k base
  | _ + 1, .db _ => none

/-- The values are those of the levels. -/
theorem getElem?_values : ∀ (k : ℕ) (v : CCoinsView),
    v.values[k]? = (level k v).map CCoinsView.value := by
  intro k
  induction k with
  | zero =>
    intro v
    cases v with
    | db d => rfl
    | cache data base => rfl
  | succ k ih =>
    intro v
    cases v with
    | db d => rfl
    | cache data base => exact ih base

theorem wf_of_level : ∀ (k : ℕ) {v w : CCoinsView}, v.Wf → level k v = some w → w.Wf := by
  intro k
  induction k with
  | zero =>
    intro v w hv hw
    obtain rfl := Option.some.inj hw
    exact hv
  | succ k ih =>
    intro v w hv hw
    cases v with
    | db d => cases hw
    | cache data base => exact ih hv.1 hw

/-- What is read at a level: `GetCoins` reads the value in the map, and a cache hands out
the same coins by `AccessCoins` and has coins exactly when there is a value. -/
def Reads (usage : CCoins → ℕ) (v : CCoinsView) (ms : List PlainMap) : Prop :=
  v.values.length = ms.length ∧ ∀ k w, level k v = some w → ∃ m, ms[k]? = some m ∧ ∀ txid,
    CCoins.norm (w.getCoins usage txid).1 = m txid ∧
    ∀ data base, w = .cache data base →
      CCoins.norm ((⟨data, base⟩ : CCoinsViewCache).accessCoins usage txid).1 = m txid ∧
      (w.haveCoins usage txid).1 = (m txid).isSome

theorem reads_values {v : CCoinsView} (hv : v.Wf) : Reads usage v v.values := by
  have hget : ∀ (w : CCoinsView) (txid : Uint256),
      CCoins.norm (w.getCoins usage txid).1 = w.value txid := by
    intro w txid
    rw [getCoins_fst]
    rfl
  refine ⟨rfl, fun k w hw => ⟨w.value, by rw [getElem?_values, hw]; rfl,
    fun txid => ⟨hget w txid, ?_⟩⟩⟩
  rintro data base rfl
  refine ⟨?_, haveCoins_cache usage (wf_of_level k hv hw) txid⟩
  -- a cache looks its coins up in the same way for `AccessCoins` and for `GetCoins`
  have hsame : ((⟨data, base⟩ : CCoinsViewCache).accessCoins usage txid).1
      = ((cache data base).getCoins usage txid).1 :=
    congrArg Prod.fst (CCoinsViewCache.view_accessCoins usage ⟨data, base⟩ txid)
  rw [hsame]
  exact hget (cache data base) txid

/-- Any operations on a well-formed stack. -/
theorem refines_of_wf : ∀ (ops : List CoinsOp) (v : CCoinsView), v.Wf →
    Runs.Each (step usage) (fun v op => Enabled v.values.length op) v ops →
    ∃ v' ms, ops.foldlM (step usage) v = some v' ∧ PlainRun v.values ops ms ∧
      Reads usage v' ms := by
  intro ops
  induction ops with
  | nil =>
    intro v hv _
    exact ⟨v, v.values, rfl, .nil _, reads_values hv⟩
  | cons op ops ih =>
    intro v hv hops
    obtain ⟨w, hstep, hw, hplain⟩ := step_spec usage hv hops.1
    obtain ⟨v', ms, hrun, hms, hreads⟩ := ih w hw (hops.2 w hstep)
    refine ⟨v', ms, ?_, .cons hplain hms, hreads⟩
    rw [List.foldlM_cons, hstep]
    exact hrun

/-- **The caches refine the plain model.**  Start with a database, whose records have no
spent outputs at the end.  Any operations, the ones that build the stack included, can be
carried out, and afterwards every level reads as the plain model after the same
operations. -/
theorem refines_plain (usage : CCoins → ℕ) (d : CCoinsViewDB)
    (hd : ∀ txid c, d.coins.lookup txid = some c → c.Clean) (ops : List CoinsOp)
    (hops : Runs.Each (step usage) (fun v op => Enabled v.values.length op) (.db d) ops) :
    ∃ v' ms, ops.foldlM (step usage) (.db d) = some v' ∧
      PlainRun [(CCoinsView.db d).value] ops ms ∧ Reads usage v' ms :=
  refines_of_wf ops (.db d) hd hops

instance (n : ℕ) : ∀ op, Decidable (Enabled n op)
  | .getCoins k _ | .haveCoins k _ => inferInstanceAs (Decidable (k < n))
  | .accessCoins k _ | .uncache k _ | .flush k => inferInstanceAs (Decidable (k + 1 < n))
  | .modifyCoins _ _ | .pop => inferInstanceAs (Decidable (1 < n))
  | .push => .isTrue trivial

/-- Coins that are made in one cache, flushed, and spent in another one on top of it. -/
theorem refines_plain_spent :
    ∃ v' ms, [CoinsOp.push, .modifyCoins 1 (fun c => { c with vout := [⟨5, []⟩] }), .push,
        .flush 1, .modifyCoins 1 (fun _ => CCoins.empty), .flush 0, .uncache 1 1, .getCoins 2 1,
        .pop].foldlM (step fun _ => 0) (.db ⟨∅, 0⟩) = some v' ∧
      PlainRun [(CCoinsView.db ⟨∅, 0⟩).value]
        [.push, .modifyCoins 1 (fun c => { c with vout := [⟨5, []⟩] }), .push, .flush 1,
          .modifyCoins 1 (fun _ => CCoins.empty), .flush 0, .uncache 1 1, .getCoins 2 1, .pop]
        ms ∧
      Reads (fun _ => 0) v' ms :=
  refines_plain (fun _ => 0) ⟨∅, 0⟩ (fun _ _ h => by simp at h) _ (by decide)

end CoinsStack
