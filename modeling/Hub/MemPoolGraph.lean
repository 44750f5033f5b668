/-
# The graph of the memory pool

`Graph` says that the links of the entries are the edges of the graph, in both
directions, that the graph has no cycles, and that the totals of an entry are those of
the entry with all its descendants, except that its own fee is not among the fees.

There is one theorem for each way in which the pool changes: `removeStaged_graph` for
transactions that are removed together, `addUnchecked_graph` for a transaction that is
added, and `prioritiseTransaction_graph` for a new fee delta.
-/
import Hub.MemPoolLinks
import Mathlib.Algebra.BigOperators.Group.Finset.Basic
import Mathlib.Algebra.Order.BigOperators.Group.Finset

namespace CTxMemPool

variable {mu : MemUsage} {s s' t : CTxMemPool}

/-! ## Totals -/

/-- The size of an entry. -/
def sizeAt (s : CTxMemPool) (h : Uint256) : ℤ := (s.coreAt h).elim 0 fun e => (e.nTxSize : ℤ)

/-- The modified fee of an entry. -/
def feeAt (s : CTxMemPool) (h : Uint256) : ℤ := (s.coreAt h).elim 0 CTxMemPoolEntry.modifiedFee

theorem Frame.sizeAt (h : Frame s s') : s'.sizeAt = s.sizeAt := by
  funext x
  unfold CTxMemPool.sizeAt
  rw [h.core]

theorem Frame.feeAt (h : Frame s s') : s'.feeAt = s.feeAt := by
  funext x
  unfold CTxMemPool.feeAt
  rw [h.core]

theorem sizeAt_nonneg (s : CTxMemPool) (h : Uint256) : 0 ≤ s.sizeAt h := by
  unfold sizeAt
  cases s.coreAt h with
  | none => exact le_refl 0
  | some e => exact Int.natCast_nonneg _

theorem sizeAt_of_lookup {h : Uint256} {e : CTxMemPoolEntry} (he : s.mapTx.lookup h = some e) :
    s.sizeAt h = e.nTxSize := by
  rw [sizeAt, coreAt, he]
  rfl

theorem feeAt_of_lookup {h : Uint256} {e : CTxMemPoolEntry} (he : s.mapTx.lookup h = some e) :
    s.feeAt h = e.modifiedFee := by
  rw [feeAt, coreAt, he]
  rfl

end CTxMemPool

/-- The totals of an entry with the descendants `F`.  The fee of the entry itself is not
counted: the constructor sets `nModFeesWithDescendants` before the fee is known. -/
structure CTxMemPoolEntry.TotalsAt (size fee : Uint256 → ℤ) (F : Finset Uint256)
    (e : CTxMemPoolEntry) : Prop where
  count : e.nCountWithDescendants = 1 + F.card
  size : e.nSizeWithDescendants = e.nTxSize + ∑ d ∈ F, size d
  fees : e.nModFeesWithDescendants = e.feeDelta + ∑ d ∈ F, fee d

namespace CTxMemPoolEntry

variable {size fee : Uint256 → ℤ} {F : Finset Uint256} {e : CTxMemPoolEntry} {d : Uint256}

theorem updateState_eq_some {x y z : ℤ} (hdirty : e.nCountWithDescendants ≠ 0)
    (hsize : 0 < e.nSizeWithDescendants + x) (hcount : 0 < e.nCountWithDescendants + z) :
    e.updateState x y z = some { e with
      nSizeWithDescendants := e.nSizeWithDescendants + x
      nModFeesWithDescendants := e.nModFeesWithDescendants + y
      nCountWithDescendants := e.nCountWithDescendants + z } := by
  simp [updateState, isDirty, hdirty, hsize, hcount]

theorem TotalsAt.congr {size' fee' : Uint256 → ℤ} (h : TotalsAt size fee F e)
    (hsize : ∀ d ∈ F, size' d = size d) (hfee : ∀ d ∈ F, fee' d = fee d) :
    TotalsAt size' fee' F e where
  count := h.count
  size := by rw [h.size, Finset.sum_congr rfl hsize]
  fees := by rw [h.fees, Finset.sum_congr rfl hfee]

/-- One descendant less. -/
theorem TotalsAt.erase (h : TotalsAt size fee F e) (hd : d ∈ F) (hpos : 0 < e.nTxSize)
    (hsize : ∀ x, 0 ≤ size x) :
    ∃ e', e.updateState (-1 * size d) (-1 * fee d) (-1) = some e' ∧
      TotalsAt size fee (F.erase d) e' := by
  have hcard := Finset.card_erase_add_one hd
  have hsum := Finset.add_sum_erase F size hd
  have hfees := Finset.add_sum_erase F fee hd
  have hrest : 0 ≤ ∑ x ∈ F.erase d, size x := Finset.sum_nonneg fun x _ => hsize x
  obtain ⟨h₁, h₂, h₃⟩ := h
  refine ⟨_, updateState_eq_some (by omega) (by omega) (by omega), ?_, ?_, ?_⟩
  · simp only
    omega
  · simp only
    omega
  · simp only
    omega

/-- One descendant more. -/
theorem TotalsAt.insert (h : TotalsAt size fee F e) (hd : d ∉ F) (hpos : 0 < e.nTxSize)
    (hsize : ∀ x, 0 ≤ size x) :
    ∃ e', e.updateState (1 * size d) (1 * fee d) 1 = some e' ∧
      TotalsAt size fee (insert d F) e' := by
  have hcard := Finset.card_insert_of_notMem hd
  have hsum := Finset.sum_insert (f := size) hd
  have hfees := Finset.sum_insert (f := fee) hd
  have hrest : 0 ≤ ∑ x ∈ F, size x := Finset.sum_nonneg fun x _ => hsize x
  have hd0 := hsize d
  obtain ⟨h₁, h₂, h₃⟩ := h
  refine ⟨_, updateState_eq_some (by omega) (by omega) (by omega), ?_, ?_, ?_⟩
  · simp only
    omega
  · simp only
    omega
  · simp only
    omega

end CTxMemPoolEntry

namespace CTxMemPool

variable {mu : MemUsage} {s s' t : CTxMemPool}

/-- The totals of all entries, with the descendants that `F` gives. -/
def Totals (s : CTxMemPool) (F : Uint256 → Finset Uint256) : Prop :=
  ∀ a e, s.mapTx.lookup a = some e → e.TotalsAt s.sizeAt s.feeAt (F a)

/-- The same change of several entries. -/
theorem foldlM_modify {f : CTxMemPoolEntry → Option CTxMemPoolEntry} :
    ∀ {A : SetEntries} {s : CTxMemPool}, A.Nodup →
    (∀ a ∈ A, ∃ e e', s.mapTx.lookup a = some e ∧ f e = some e') →
    ∃ m, A.foldlM (fun s a => s.modify a f) s = some { s with mapTx := m } ∧
      ∀ x, m.lookup x = if x ∈ A then (s.mapTx.lookup x).bind f else s.mapTx.lookup x := by
  intro A
  induction A with
  | nil =>
    intro s _ _
    exact ⟨s.mapTx, rfl, by simp⟩
  | cons a A ih =>
    intro s hnd hf
    obtain ⟨ha, hnd⟩ := List.nodup_cons.mp hnd
    obtain ⟨e, e', he, he'⟩ := hf a (by simp)
    have hone : s.modify a f = some { s with mapTx := s.mapTx.insert a e' } := by
      simp [modify, he, he']
    obtain ⟨m, hm, hlookup⟩ := ih (s := { s with mapTx := s.mapTx.insert a e' }) hnd (by
      intro b hb
      obtain ⟨d, d', hd, hd'⟩ := hf b (by simp [hb])
      refine ⟨d, d', ?_, hd'⟩
      rw [AList.lookup_insert_ne, hd]
      rintro rfl
      exact ha hb)
    refine ⟨m, ?_, fun x => ?_⟩
    · rw [List.foldlM_cons, hone]
      exact hm
    · rw [hlookup]
      by_cases hx : x = a
      · subst hx
        rw [if_neg ha, if_pos (by simp), AList.lookup_insert, he, Option.bind_some, he']
      · rw [AList.lookup_insert_ne hx]
        simp [hx]

/-- The same update of the totals of the entries `A`.  It gives all entries the totals for
the descendants `F`. -/
theorem foldlM_updateState {size fee : Uint256 → ℤ} {F : Uint256 → Finset Uint256}
    {x y z : ℤ} {A : SetEntries} (hnd : A.Nodup)
    (hupdate : ∀ a ∈ A, ∃ e e', s.mapTx.lookup a = some e ∧ e.updateState x y z = some e' ∧
      e'.TotalsAt size fee (F a))
    (hother : ∀ a e, a ∉ A → s.mapTx.lookup a = some e → e.TotalsAt size fee (F a)) :
    ∃ m, A.foldlM (fun s a => s.modify a (·.updateState x y z)) s = some { s with mapTx := m } ∧
      Frame s { s with mapTx := m } ∧
      ∀ a e, m.lookup a = some e → e.TotalsAt size fee (F a) := by
  obtain ⟨m, hm, hlookup⟩ := foldlM_modify (s := s) (f := (·.updateState x y z)) hnd (by
    intro a ha
    obtain ⟨e, e', he, he', -⟩ := hupdate a ha
    exact ⟨e, e', he, he'⟩)
  refine ⟨m, hm, frame_foldlM (fun s x s' => frame_modify
    fun e e' => CTxMemPoolEntry.core_updateState) hm, fun a e he => ?_⟩
  rw [hlookup] at he
  by_cases ha : a ∈ A
  · obtain ⟨e₀, e', he₀, he', htot⟩ := hupdate a ha
    rw [if_pos ha, he₀, Option.bind_some, he'] at he
    obtain rfl := Option.some.inj he
    exact htot
  · rw [if_neg ha] at he
    exact hother a e ha he

/-- The links are the edges, there are no cycles, and the totals are right. -/
structure Graph (s : CTxMemPool) : Prop where
  next : NextExact s
  keys : LinkKeys s
  parents : ∀ c p, p ∈ (s.links c).parents ↔ s.SpendsFrom c p
  children : ∀ c p, c ∈ (s.links p).children ↔ s.SpendsFrom c p
  parents_nodup : ∀ h, (s.links h).parents.Nodup
  children_nodup : ∀ h, (s.links h).children.Nodup
  acyclic : ∀ h, ¬ Relation.TransGen s.SpendsFrom h h
  size_pos : ∀ h e, s.mapTx.lookup h = some e → 0 < e.nTxSize
  delta : ∀ h e, s.mapTx.lookup h = some e → e.feeDelta = (s.mapDeltas.lookup h).getD 0
  totals : Totals s s.descendants

theorem Graph.parents_hasTx (h : Graph s) {x y : Uint256} (hy : y ∈ (s.links x).parents) :
    s.hasTx y = true := ((h.parents x y).mp hy).hasTx_right

theorem Graph.children_hasTx (h : Graph s) {x y : Uint256} (hy : y ∈ (s.links x).children) :
    s.hasTx y = true := ((h.children y x).mp hy).hasTx_left

/-- A graph up to the totals. -/
structure Shape (s : CTxMemPool) : Prop where
  next : NextExact s
  keys : LinkKeys s
  parents : ∀ c p, p ∈ (s.links c).parents ↔ s.SpendsFrom c p
  children : ∀ c p, c ∈ (s.links p).children ↔ s.SpendsFrom c p
  parents_nodup : ∀ h, (s.links h).parents.Nodup
  children_nodup : ∀ h, (s.links h).children.Nodup
  acyclic : ∀ h, ¬ Relation.TransGen s.SpendsFrom h h
  size_pos : ∀ h e, s.mapTx.lookup h = some e → 0 < e.nTxSize
  delta : ∀ h e, s.mapTx.lookup h = some e → e.feeDelta = (s.mapDeltas.lookup h).getD 0

theorem Shape.graph (h : Shape s) (htotals : Totals s s.descendants) : Graph s :=
  ⟨h.next, h.keys, h.parents, h.children, h.parents_nodup, h.children_nodup, h.acyclic,
    h.size_pos, h.delta, htotals⟩

theorem Frame.descendants (h : Frame s s') : s'.descendants = s.descendants := by
  funext a
  ext d
  rw [mem_descendants, mem_descendants, h.spendsFrom]

/-- What happens to the totals does not matter. -/
theorem Shape.frame (h : Shape s) (hf : Frame s s') (hlinks : s'.mapLinks = s.mapLinks) :
    Shape s' := by
  have hlinks' : ∀ x, s'.links x = s.links x := by
    intro x
    rw [links, links, hlinks]
  refine ⟨h.next.frame hf, fun x => ?_, fun c p => ?_, fun c p => ?_, fun x => ?_, fun x => ?_,
    fun x => ?_, fun x e he => ?_, fun x e he => ?_⟩
  · rw [hf.hasTx, hlinks]
    exact h.keys x
  · rw [hf.spendsFrom, hlinks']
    exact h.parents c p
  · rw [hf.spendsFrom, hlinks']
    exact h.children c p
  · rw [hlinks']
    exact h.parents_nodup x
  · rw [hlinks']
    exact h.children_nodup x
  · rw [hf.spendsFrom]
    exact h.acyclic x
  · obtain ⟨e₀, he₀, hcore⟩ := hf.lookup he
    show 0 < e.core.nTxSize
    rw [hcore]
    exact h.size_pos x e₀ he₀
  · obtain ⟨e₀, he₀, hcore⟩ := hf.lookup he
    show e.core.feeDelta = _
    rw [hcore, hf.deltas]
    exact h.delta x e₀ he₀

/-! ## Removing entries: the ancestors -/

/-- The state `t` of a removal from `s` after the ancestors of the entries `K` were
updated. -/
structure Staged (s : CTxMemPool) (K : Finset Uint256) (t : CTxMemPool) : Prop where
  frame : Frame s t
  keys : LinkKeys t
  parents : ∀ h, (t.links h).parents = (s.links h).parents
  children : ∀ h c, c ∈ (t.links h).children ↔ c ∈ (s.links h).children ∧ c ∉ K
  children_nodup : ∀ h, (t.links h).children.Nodup
  totals : Totals t fun a => s.descendants a \ K

theorem Graph.staged (h : Graph s) : Staged s ∅ s where
  frame := Frame.refl s
  keys := h.keys
  parents _ := rfl
  children := by simp
  children_nodup := h.children_nodup
  totals := by
    simp only [Finset.sdiff_empty]
    exact h.totals

variable (mu) in
theorem mapTx_foldl_updateChild (l : List Uint256) (x : Uint256) (add : Bool) :
    ∀ s : CTxMemPool, (l.foldl (fun s p => s.updateChild mu p x add) s).mapTx = s.mapTx := by
  induction l with
  | nil =>
    intro s
    rfl
  | cons p l ih =>
    intro s
    rw [List.foldl_cons, ih]
    cases add with
    | false => rfl
    | true => rfl

variable (mu) in
/-- One more entry. -/
theorem Staged.step (hs : Graph s) {K : Finset Uint256} (ht : Staged s K t) {r : Uint256}
    (hr : s.hasTx r = true) (hrK : r ∉ K) :
    ∃ t', t.updateAncestorsForRemoval mu r = some t' ∧ Staged s (insert r K) t' := by
  have hframe := ht.frame
  have hhas : ∀ {x}, s.hasTx x = true → t.hasTx x = true := by
    intro x hx
    rw [hframe.hasTx]
    exact hx
  obtain ⟨e, he⟩ := hasTx_iff_lookup.mp (hhas hr)
  have hetx : t.txAt r = some e.tx := by rw [txAt, he]; rfl
  have hhash : e.tx.hash = r := (hs.next.frame hframe).hash r e.tx hetx
  have hparents : ∀ x y, y ∈ (t.links x).parents ↔ s.SpendsFrom x y := by
    intro x y
    rw [ht.parents]
    exact hs.parents x y
  have hin : ∀ x y, y ∈ (t.links x).parents → t.hasTx y = true :=
    fun x y hy => hhas ((hparents x y).mp hy).hasTx_right
  -- the ancestors are those of which `r` is a descendant
  obtain ⟨A, hA, hAnd, hAmem⟩ := ancestors_of_entry ht.keys hin
    (fun x => by rw [ht.parents]; exact hs.parents_nodup x) (e := e) (by rw [hhash]; exact hhas hr)
  have hA' : ∀ a, a ∈ A ↔ r ∈ s.descendants a := by
    intro a
    have hedge : (fun x y => y ∈ (t.links x).parents) = s.SpendsFrom := by
      funext x y
      exact propext (hparents x y)
    rw [hAmem, hedge, hhash, mem_descendants]
  -- the child links of the parents
  let t₁ := (t.links r).parents.foldl (fun t p => t.updateChild mu p r false) t
  have hlinks : ∀ h, t₁.links h = if h ∈ (t.links r).parents then
      { t.links h with children := (t.links h).children.erase r } else t.links h :=
    links_foldl_updateChild mu (by rw [ht.parents]; exact hs.parents_nodup r) r false t
  have hframe₁ : Frame t t₁ := frame_foldl (fun s x => frame_updateChild mu s x r false) _ t
  have hkeys₁ : LinkKeys t₁ :=
    linkKeys_foldl (fun s x => frame_updateChild mu s x r false)
      (fun s x hk hx => linkKeys_updateChild hk hx) ht.keys (hin r)
  have hmap₁ : t₁.mapTx = t.mapTx := mapTx_foldl_updateChild mu _ r false t
  have hsizes := sizeAt_of_lookup he
  have hfees := feeAt_of_lookup he
  -- the totals of the ancestors
  have hpos : ∀ a d, t.mapTx.lookup a = some d → 0 < d.nTxSize := by
    intro a d hd
    obtain ⟨d', hd', hcore⟩ := hframe.lookup hd
    show 0 < d.core.nTxSize
    rw [hcore]
    exact hs.size_pos a d' hd'
  have hupdate : ∀ a ∈ A, ∃ d d', t.mapTx.lookup a = some d ∧
      d.updateState (-1 * e.nTxSize) (-1 * e.modifiedFee) (-1) = some d' ∧
      d'.TotalsAt t.sizeAt t.feeAt ((s.descendants a \ K).erase r) := by
    intro a ha
    have hra := (hA' a).mp ha
    obtain ⟨b, -, hb⟩ := Relation.TransGen.tail'_iff.mp (mem_descendants.mp hra)
    obtain ⟨d, hd⟩ := hasTx_iff_lookup.mp (hhas hb.hasTx_right)
    obtain ⟨d', hd', htot⟩ := (ht.totals a d hd).erase
      (Finset.mem_sdiff.mpr ⟨hra, hrK⟩) (hpos a d hd) t.sizeAt_nonneg
    rw [hsizes, hfees] at hd'
    exact ⟨d, d', hd, hd', htot⟩
  obtain ⟨m, hm, hframe₂, htotals⟩ := foldlM_updateState (s := t₁)
    (F := fun a => (s.descendants a \ K).erase r) hAnd (by
      intro a ha
      rw [hmap₁]
      exact hupdate a ha)
    (by
      intro a d ha hd
      rw [hmap₁] at hd
      rw [Finset.erase_eq_of_notMem]
      · exact ht.totals a d hd
      · intro hmem
        exact ha ((hA' a).mpr (Finset.mem_sdiff.mp hmem).1))
  have hrun : t.updateAncestorsForRemoval mu r = some { t₁ with mapTx := m } := by
    simp only [updateAncestorsForRemoval, he, hA, Option.bind_eq_bind, Option.bind_some,
      updateAncestorsOf, getMemPoolParents_of_hasTx ht.keys (hhas hr)]
    rw [mapTx_foldl_updateChild, he]
    exact hm
  have hframe' : Frame t { t₁ with mapTx := m } := hframe₁.trans hframe₂
  refine ⟨_, hrun, hframe.trans hframe', ?_, ?_, ?_, ?_, ?_⟩
  · intro h
    rw [hframe'.hasTx, ← hframe₁.hasTx]
    exact hkeys₁ h
  · intro h
    have hlh := hlinks h
    show (t₁.links h).parents = _
    rw [hlh, ← ht.parents]
    split
    · rfl
    · rfl
  · intro h c
    show c ∈ (t₁.links h).children ↔ _
    rw [hlinks]
    split
    · next hh =>
      simp only
      rw [(ht.children_nodup h).mem_erase_iff, ht.children, Finset.mem_insert, not_or]
      constructor
      · rintro ⟨h₁, h₂, h₃⟩
        exact ⟨h₂, h₁, h₃⟩
      · rintro ⟨h₂, h₁, h₃⟩
        exact ⟨h₁, h₂, h₃⟩
    · next hh =>
      rw [ht.children, Finset.mem_insert, not_or]
      refine and_congr_right fun hc => ⟨fun hK => ⟨?_, hK⟩, fun hK => hK.2⟩
      rintro rfl
      exact hh ((hparents c h).mpr ((hs.children c h).mp hc))
  · intro h
    show (t₁.links h).children.Nodup
    rw [hlinks]
    split
    · exact (ht.children_nodup h).erase r
    · exact ht.children_nodup h
  · intro a d hd
    show d.TotalsAt _ _ (s.descendants a \ insert r K)
    rw [hframe'.sizeAt, hframe'.feeAt, Finset.sdiff_insert]
    exact htotals a d hd

variable (mu) in
theorem Staged.run (hs : Graph s) : ∀ {R : SetEntries} {K : Finset Uint256} {t : CTxMemPool},
    Staged s K t → R.Nodup → (∀ r ∈ R, s.hasTx r = true ∧ r ∉ K) →
    ∃ t', R.foldlM (updateAncestorsForRemoval mu) t = some t' ∧ Staged s (K ∪ R.toFinset) t' := by
  intro R
  induction R with
  | nil =>
    intro K t ht _ _
    exact ⟨t, rfl, by simpa using ht⟩
  | cons r R ih =>
    intro K t ht hnd hR
    obtain ⟨hrR, hnd⟩ := List.nodup_cons.mp hnd
    obtain ⟨hr, hrK⟩ := hR r (by simp)
    obtain ⟨t₁, h₁, ht₁⟩ := ht.step mu hs hr hrK
    obtain ⟨t', h', ht'⟩ := ih ht₁ hnd (by
      intro x hx
      obtain ⟨hx₁, hx₂⟩ := hR x (by simp [hx])
      refine ⟨hx₁, ?_⟩
      rw [Finset.mem_insert, not_or]
      refine ⟨?_, hx₂⟩
      rintro rfl
      exact hrR hx)
    refine ⟨t', ?_, ?_⟩
    · rw [List.foldlM_cons, h₁]
      exact h'
    · rw [List.toFinset_cons, Finset.union_insert, ← Finset.insert_union]
      exact ht'

/-! ## Removing entries: the children -/

/-- The state `u` after the entries `Q` of `t` were cut off from their children. -/
structure Cut (t : CTxMemPool) (Q : Finset Uint256) (u : CTxMemPool) : Prop where
  frame : Frame t u
  mapTx : u.mapTx = t.mapTx
  keys : LinkKeys u
  children : ∀ h, (u.links h).children = (t.links h).children
  parents : ∀ h p, p ∈ (u.links h).parents ↔
    p ∈ (t.links h).parents ∧ ¬ (p ∈ Q ∧ h ∈ (t.links p).children)
  parents_nodup : ∀ h, (u.links h).parents.Nodup

theorem mapTx_foldl_updateParent (l : List Uint256) (x : Uint256) :
    ∀ s : CTxMemPool, (l.foldl (fun s c => s.updateParent mu c x false) s).mapTx = s.mapTx := by
  induction l with
  | nil =>
    intro s
    rfl
  | cons c l ih =>
    intro s
    rw [List.foldl_cons, ih]
    rfl

variable (mu) in
theorem Cut.step {Q : Finset Uint256} {u : CTxMemPool} (hu : Cut t Q u)
    (hnd : ∀ h, (t.links h).children.Nodup)
    (hin : ∀ x y, y ∈ (t.links x).children → t.hasTx y = true) {r : Uint256}
    (hr : t.hasTx r = true) :
    ∃ u', u.updateChildrenForRemoval mu r = some u' ∧ Cut t (insert r Q) u' := by
  have hru : u.hasTx r = true := by
    rw [hu.frame.hasTx]
    exact hr
  have hrun : u.updateChildrenForRemoval mu r = some ((t.links r).children.foldl
      (fun u c => u.updateParent mu c r false) u) := by
    simp only [updateChildrenForRemoval, getMemPoolChildren_of_hasTx hu.keys hru,
      Option.bind_eq_bind, Option.bind_some, hu.children]
  have hlinks := links_foldl_updateParent mu (hnd r) r u
  refine ⟨_, hrun, ?_, ?_, ?_, ?_, ?_, ?_⟩
  · exact hu.frame.trans (frame_updateChildrenForRemoval hrun)
  · rw [mapTx_foldl_updateParent]
    exact hu.mapTx
  · refine linkKeys_foldl (fun s x => frame_updateParent mu s x r false)
      (fun s x hk hx => linkKeys_updateParent hk hx) hu.keys fun x hx => ?_
    rw [hu.frame.hasTx]
    exact hin r x hx
  · intro h
    rw [hlinks]
    split
    · exact hu.children h
    · exact hu.children h
  · intro h p
    rw [hlinks]
    by_cases hh : h ∈ (t.links r).children
    · rw [if_pos hh]
      simp only
      rw [(hu.parents_nodup h).mem_erase_iff, hu.parents, Finset.mem_insert]
      constructor
      · rintro ⟨hpr, hp, hQ⟩
        refine ⟨hp, ?_⟩
        rintro ⟨rfl | hpQ, hc⟩
        · exact hpr rfl
        · exact hQ ⟨hpQ, hc⟩
      · rintro ⟨hp, hQ⟩
        refine ⟨?_, hp, fun hc => hQ ⟨.inr hc.1, hc.2⟩⟩
        rintro rfl
        exact hQ ⟨.inl rfl, hh⟩
    · rw [if_neg hh, hu.parents, Finset.mem_insert]
      refine and_congr_right fun _ => not_congr ?_
      constructor
      · rintro ⟨hpQ, hc⟩
        exact ⟨.inr hpQ, hc⟩
      · rintro ⟨rfl | hpQ, hc⟩
        · exact absurd hc hh
        · exact ⟨hpQ, hc⟩
  · intro h
    rw [hlinks]
    split
    · exact (hu.parents_nodup h).erase r
    · exact hu.parents_nodup h

variable (mu) in
theorem Cut.run (hnd : ∀ h, (t.links h).children.Nodup)
    (hin : ∀ x y, y ∈ (t.links x).children → t.hasTx y = true) :
    ∀ {R : SetEntries} {Q : Finset Uint256} {u : CTxMemPool}, Cut t Q u →
    (∀ r ∈ R, t.hasTx r = true) →
    ∃ u', R.foldlM (updateChildrenForRemoval mu) u = some u' ∧ Cut t (Q ∪ R.toFinset) u' := by
  intro R
  induction R with
  | nil =>
    intro Q u hu _
    exact ⟨u, rfl, by simpa using hu⟩
  | cons r R ih =>
    intro Q u hu hR
    obtain ⟨u₁, h₁, hu₁⟩ := hu.step mu hnd hin (hR r (by simp))
    obtain ⟨u', h', hu'⟩ := ih hu₁ fun x hx => hR x (by simp [hx])
    refine ⟨u', ?_, ?_⟩
    · rw [List.foldlM_cons, h₁]
      exact h'
    · rw [List.toFinset_cons, Finset.union_insert, ← Finset.insert_union]
      exact hu'

/-! ## Removing entries -/

variable (mu) in
theorem removeUnchecked_spec {u : CTxMemPool} {r : Uint256} (hr : u.hasTx r = true) :
    ∃ v, u.removeUnchecked mu r = some v ∧
      (∀ x, v.mapTx.lookup x = if x = r then none else u.mapTx.lookup x) ∧
      (∀ x, v.mapLinks.lookup x = if x = r then none else u.mapLinks.lookup x) ∧
      v.mapDeltas = u.mapDeltas ∧ v.coins = u.coins := by
  obtain ⟨e, he⟩ := hasTx_iff_lookup.mp hr
  simp only [removeUnchecked, he, Option.bind_eq_bind, Option.bind_some]
  refine ⟨_, rfl, fun x => ?_, fun x => ?_, rfl, rfl⟩
  · by_cases hx : x = r
    · subst hx
      rw [if_pos rfl, AList.lookup_erase]
    · rw [if_neg hx, AList.lookup_erase_ne hx]
  · by_cases hx : x = r
    · subst hx
      rw [if_pos rfl, AList.lookup_erase]
    · rw [if_neg hx, AList.lookup_erase_ne hx]

variable (mu) in
theorem foldlM_removeUnchecked : ∀ {R : SetEntries} {u : CTxMemPool}, R.Nodup →
    (∀ r ∈ R, u.hasTx r = true) →
    ∃ v, R.foldlM (removeUnchecked mu) u = some v ∧
      (∀ x, v.mapTx.lookup x = if x ∈ R then none else u.mapTx.lookup x) ∧
      (∀ x, v.mapLinks.lookup x = if x ∈ R then none else u.mapLinks.lookup x) ∧
      v.mapDeltas = u.mapDeltas ∧ v.coins = u.coins := by
  intro R
  induction R with
  | nil =>
    intro u _ _
    exact ⟨u, rfl, by simp, by simp, rfl, rfl⟩
  | cons r R ih =>
    intro u hnd hR
    obtain ⟨hrR, hnd⟩ := List.nodup_cons.mp hnd
    obtain ⟨u₁, hone, htx₁, hlinks₁, hdeltas₁, hcoins₁⟩ :=
      removeUnchecked_spec mu (hR r (by simp))
    obtain ⟨v, hv, htx, hlinks, hdeltas, hcoins⟩ := ih hnd (u := u₁) (by
      intro x hx
      have hne : x ≠ r := by
        rintro rfl
        exact hrR hx
      rw [hasTx, htx₁, if_neg hne]
      exact hR x (by simp [hx]))
    refine ⟨v, ?_, fun x => ?_, fun x => ?_, hdeltas.trans hdeltas₁, hcoins.trans hcoins₁⟩
    · rw [List.foldlM_cons, hone]
      exact hv
    · rw [htx, htx₁]
      by_cases hx : x = r
      · simp [hx]
      · simp [hx]
    · rw [hlinks, hlinks₁]
      by_cases hx : x = r
      · simp [hx]
      · simp [hx]

/-- The entries `R` of `s` are gone in `v`. -/
structure Removed (s : CTxMemPool) (R : SetEntries) (v : CTxMemPool) : Prop where
  core : ∀ x, v.coreAt x = if x ∈ R then none else s.coreAt x
  deltas : v.mapDeltas = s.mapDeltas
  coins : v.coins = s.coins

theorem Removed.txAt {R : SetEntries} {v : CTxMemPool} (h : Removed s R v) (x : Uint256) :
    v.txAt x = if x ∈ R then none else s.txAt x := by
  rw [txAt_eq, h.core]
  split
  · rfl
  · exact (txAt_eq s x).symm

theorem Removed.hasTx {R : SetEntries} {v : CTxMemPool} (h : Removed s R v) {x : Uint256} :
    v.hasTx x = true ↔ s.hasTx x = true ∧ x ∉ R := by
  rw [hasTx_eq, h.txAt, hasTx_eq]
  by_cases hx : x ∈ R
  · simp [hx]
  · simp [hx]

theorem Removed.spendsFrom {R : SetEntries} {v : CTxMemPool} (h : Removed s R v)
    {c p : Uint256} : v.SpendsFrom c p ↔ s.SpendsFrom c p ∧ c ∉ R ∧ p ∉ R := by
  constructor
  · rintro ⟨tx, htx, hp, ho⟩
    rw [h.txAt] at htx
    obtain ⟨hp, hpR⟩ := h.hasTx.mp hp
    by_cases hc : c ∈ R
    · rw [if_pos hc] at htx
      cases htx
    · rw [if_neg hc] at htx
      exact ⟨⟨tx, htx, hp, ho⟩, hc, hpR⟩
  · rintro ⟨⟨tx, htx, hp, ho⟩, hc, hpR⟩
    refine ⟨tx, ?_, h.hasTx.mpr ⟨hp, hpR⟩, ho⟩
    rw [h.txAt, if_neg hc]
    exact htx

/-- No removed entry is between two others. -/
def Separated (s : CTxMemPool) (R : SetEntries) : Prop :=
  ∀ d r a, d ∉ R → r ∈ R → a ∉ R → Relation.TransGen s.SpendsFrom d r →
    ¬ Relation.TransGen s.SpendsFrom r a

theorem Removed.mem_descendants {R : SetEntries} {v : CTxMemPool} (h : Removed s R v)
    (hsep : Separated s R) {a : Uint256} (ha : a ∉ R) :
    v.descendants a = s.descendants a \ R.toFinset := by
  ext d
  rw [Finset.mem_sdiff, CTxMemPool.mem_descendants, CTxMemPool.mem_descendants, List.mem_toFinset]
  constructor
  · intro hd
    obtain ⟨b, hb, -⟩ := Relation.TransGen.head'_iff.mp hd
    exact ⟨Relation.TransGen.mono (fun x y hxy => (h.spendsFrom.mp hxy).1) _ _ hd,
      (h.spendsFrom.mp hb).2.1⟩
  · rintro ⟨hd, hdR⟩
    exact Paths.transGen_of_separated (R := (· ∈ R))
      (fun x y hxy hx hy => h.spendsFrom.mpr ⟨hxy, hx, hy⟩)
      (fun x y z hx hy hz hxy => hsep x y z hx hy hz hxy) hd hdR ha

/-- The links when the ancestors `t` and the children `u` are updated and the entries
are gone. -/
theorem Removed.shape (hs : Graph s) {R : SetEntries} {u v : CTxMemPool} (hrem : Removed s R v)
    (hnext : NextExact v) (ht : Staged s R.toFinset t) (hu : Cut t R.toFinset u)
    (htx : ∀ x, v.mapTx.lookup x = if x ∈ R then none else u.mapTx.lookup x)
    (hlinks : ∀ x, v.mapLinks.lookup x = if x ∈ R then none else u.mapLinks.lookup x) :
    Shape v := by
  have hkept : ∀ x, x ∉ R → v.links x = u.links x := by
    intro x hx
    rw [links, hlinks, if_neg hx, links]
  have hgone : ∀ x, x ∈ R → v.links x = ⟨[], []⟩ := by
    intro x hx
    rw [links, hlinks, if_pos hx]
    rfl
  have hcore : ∀ x e, v.mapTx.lookup x = some e →
      ∃ e₀, s.mapTx.lookup x = some e₀ ∧ e.core = e₀.core := by
    intro x e he
    rw [htx] at he
    by_cases hx : x ∈ R
    · rw [if_pos hx] at he
      cases he
    · rw [if_neg hx] at he
      exact (ht.frame.trans hu.frame).lookup he
  refine ⟨hnext, fun x => ?_, fun c p => ?_, fun c p => ?_, fun x => ?_, fun x => ?_,
    fun x hx => ?_, fun x e he => ?_, fun x e he => ?_⟩
  · have hxu := hu.keys x
    rw [hlinks, CTxMemPool.hasTx, htx]
    by_cases hx : x ∈ R
    · rw [if_pos hx, if_pos hx]
      rfl
    · rw [if_neg hx, if_neg hx]
      exact hxu
  · rw [hrem.spendsFrom]
    by_cases hc : c ∈ R
    · rw [hgone c hc]
      simp [hc]
    · rw [hkept c hc, hu.parents, ht.parents, hs.parents, ht.children, hs.children,
        List.mem_toFinset, List.mem_toFinset]
      constructor
      · rintro ⟨hcp, hno⟩
        exact ⟨hcp, hc, fun hp => hno ⟨hp, hcp, hc⟩⟩
      · rintro ⟨hcp, -, hp⟩
        exact ⟨hcp, fun hno => hp hno.1⟩
  · rw [hrem.spendsFrom]
    by_cases hp : p ∈ R
    · rw [hgone p hp]
      simp [hp]
    · rw [hkept p hp, hu.children, ht.children, hs.children, List.mem_toFinset]
      constructor
      · rintro ⟨hcp, hc⟩
        exact ⟨hcp, hc, hp⟩
      · rintro ⟨hcp, hc, -⟩
        exact ⟨hcp, hc⟩
  · by_cases hx : x ∈ R
    · rw [hgone x hx]
      exact List.nodup_nil
    · rw [hkept x hx]
      exact hu.parents_nodup x
  · by_cases hx : x ∈ R
    · rw [hgone x hx]
      exact List.nodup_nil
    · rw [hkept x hx, hu.children]
      exact ht.children_nodup x
  · exact hs.acyclic x
      (Relation.TransGen.mono (fun x y hxy => (hrem.spendsFrom.mp hxy).1) _ _ hx)
  · obtain ⟨e₀, he₀, heq⟩ := hcore x e he
    show 0 < e.core.nTxSize
    rw [heq]
    exact hs.size_pos x e₀ he₀
  · obtain ⟨e₀, he₀, heq⟩ := hcore x e he
    show e.core.feeDelta = _
    rw [heq, hrem.deltas]
    exact hs.delta x e₀ he₀

variable (mu) in
/-- **Removing entries together** keeps the graph, if none of them is between two others. -/
theorem removeStaged_graph (hs : Graph s) {R : SetEntries} (hnd : R.Nodup)
    (hR : ∀ r ∈ R, s.hasTx r = true) (hsep : Separated s R) :
    ∃ v, s.removeStaged mu R = some v ∧ Removed s R v ∧ Graph v := by
  obtain ⟨t, hrun₁, ht⟩ := Staged.run mu hs hs.staged hnd
    fun r hr => ⟨hR r hr, Finset.notMem_empty r⟩
  rw [Finset.empty_union] at ht
  have hin : ∀ x y, y ∈ (t.links x).children → t.hasTx y = true := by
    intro x y hy
    rw [ht.frame.hasTx]
    exact hs.children_hasTx ((ht.children x y).mp hy).1
  have hcut : Cut t ∅ t := ⟨Frame.refl t, rfl, ht.keys, fun _ => rfl, by simp, fun h => by
    rw [ht.parents]
    exact hs.parents_nodup h⟩
  obtain ⟨u, hrun₂, hu⟩ := Cut.run mu ht.children_nodup hin hcut fun r hr => by
    rw [ht.frame.hasTx]
    exact hR r hr
  rw [Finset.empty_union] at hu
  have hframe := ht.frame.trans hu.frame
  obtain ⟨v, hrun₃, htx, hlinks, hdeltas, hcoins⟩ := foldlM_removeUnchecked mu (u := u)
    hnd fun r hr => by
      rw [hframe.hasTx]
      exact hR r hr
  have hrun : s.removeStaged mu R = some v := by
    simp only [removeStaged, updateForRemoveFromMempool, Option.bind_eq_bind, hrun₁,
      Option.bind_some, hrun₂]
    exact hrun₃
  have hrem : Removed s R v := by
    refine ⟨fun x => ?_, hdeltas.trans hframe.deltas, hcoins.trans hframe.coins⟩
    rw [← hframe.core, coreAt, htx]
    split
    · rfl
    · rfl
  have hshape : Shape v :=
    hrem.shape hs ((stable_nextExact mu).removeStaged hs.next hrun) ht hu htx hlinks
  refine ⟨v, hrun, hrem, hshape.graph fun a e he => ?_⟩
  rw [htx, hu.mapTx] at he
  by_cases ha : a ∈ R
  · rw [if_pos ha] at he
    cases he
  · rw [if_neg ha] at he
    rw [hrem.mem_descendants hsep ha]
    have hsame : ∀ d ∈ s.descendants a \ R.toFinset, v.coreAt d = t.coreAt d := by
      intro d hd
      rw [hrem.core, if_neg (by simpa using (Finset.mem_sdiff.mp hd).2), ht.frame.core]
    refine (ht.totals a e he).congr (fun d hd => ?_) fun d hd => ?_
    · rw [sizeAt, sizeAt, hsame d hd]
    · rw [feeAt, feeAt, hsame d hd]

/-! ## Adding an entry -/

variable (mu) in
/-- The loop of `addUnchecked` that sets the parents of the new entry. -/
theorem links_setParents {x : Uint256} : ∀ (l : List Uint256) (s : CTxMemPool),
    let s' := s.setParents mu x l
    s'.mapTx = s.mapTx ∧ (∀ h, h ≠ x → s'.links h = s.links h) ∧
      (s'.links x).children = (s.links x).children ∧
      (∀ p, p ∈ (s'.links x).parents ↔
        p ∈ (s.links x).parents ∨ (p ∈ l ∧ s.hasTx p = true)) ∧
      ((s.links x).parents.Nodup → (s'.links x).parents.Nodup) ∧
      (LinkKeys s → s.hasTx x = true → LinkKeys s') := by
  intro l
  induction l with
  | nil =>
    intro s
    exact ⟨rfl, fun _ _ => rfl, rfl, by simp [setParents], id, fun h _ => h⟩
  | cons p l ih =>
    intro s
    simp only [setParents, List.foldl_cons]
    simp only [setParents] at ih
    by_cases hp : s.hasTx p = true
    · rw [if_pos hp]
      have hhas : ∀ y, (s.updateParent mu x p true).hasTx y = s.hasTx y :=
        (frame_updateParent mu s x p true).hasTx
      obtain ⟨hmap, hne, hch, hpar, hnd, hkeys⟩ := ih (s.updateParent mu x p true)
      refine ⟨hmap.trans rfl, fun h hh => ?_, ?_, fun q => ?_, fun h => hnd ?_,
        fun hk hx => hkeys (linkKeys_updateParent hk hx) (by rw [hhas]; exact hx)⟩
      · rw [hne h hh, links_updateParent, if_neg hh]
      · rw [hch, links_updateParent, if_pos rfl]
      · rw [hpar, links_updateParent, if_pos rfl, hhas]
        simp only [if_true, List.mem_insert_iff, List.mem_cons]
        constructor
        · rintro ((rfl | h) | ⟨h, h'⟩)
          · exact .inr ⟨.inl rfl, hp⟩
          · exact .inl h
          · exact .inr ⟨.inr h, h'⟩
        · rintro (h | ⟨rfl | h, h'⟩)
          · exact .inl (.inr h)
          · exact .inl (.inl rfl)
          · exact .inr ⟨h, h'⟩
      · rw [links_updateParent, if_pos rfl]
        exact h.insert
    · rw [if_neg hp]
      obtain ⟨hmap, hne, hch, hpar, hnd, hkeys⟩ := ih s
      refine ⟨hmap, hne, hch, fun q => ?_, hnd, hkeys⟩
      rw [hpar, List.mem_cons]
      constructor
      · rintro (h | ⟨h, h'⟩)
        · exact .inl h
        · exact .inr ⟨.inr h, h'⟩
      · rintro (h | ⟨rfl | h, h'⟩)
        · exact .inl h
        · exact absurd h' hp
        · exact .inr ⟨h, h'⟩

/-- A transaction that can be added to the pool as a node that nothing leads to. -/
structure Addable (s : CTxMemPool) (entry : CTxMemPoolEntry) : Prop where
  absent : s.hasTx entry.tx.hash = false
  nodup : entry.tx.prevouts.Nodup
  free : ∀ o ∈ entry.tx.prevouts, s.mapNextTx.lookup o = none
  not_self : ∀ o ∈ entry.tx.prevouts, o.hash ≠ entry.tx.hash
  childless : ∀ c tx, s.txAt c = some tx → ∀ o ∈ tx.prevouts, o.hash ≠ entry.tx.hash
  count : entry.nCountWithDescendants = 1
  size : entry.nSizeWithDescendants = entry.nTxSize
  fees : entry.nModFeesWithDescendants = 0
  feeDelta : entry.feeDelta = 0
  size_pos : 0 < entry.nTxSize

/-- The ancestors that `insertTx` hands to `addUnchecked`. -/
theorem ancestors_of_new (hs : Graph s) (entry : CTxMemPoolEntry) :
    ∃ A, s.calculateMemPoolAncestors entry noLimits true = some (none, A) ∧ A.Nodup ∧
      ∀ a, a ∈ A ↔ ∃ p, (s.hasTx p = true ∧ ∃ o ∈ entry.tx.prevouts, o.hash = p) ∧
        Relation.ReflTransGen s.SpendsFrom p a := by
  obtain ⟨ps, hps, hpsnd, hpsmem⟩ :=
    searchParents_noLimits s entry.tx.prevouts [] List.nodup_nil
  have hmem : ∀ p, p ∈ ps ↔ s.hasTx p = true ∧ ∃ o ∈ entry.tx.prevouts, o.hash = p := by
    intro p
    rw [hpsmem]
    simp
  obtain ⟨A, hA, hAnd, hAmem⟩ := run_parents hs.keys (fun x y hy => hs.parents_hasTx hy) hpsnd
    fun p hp => ((hmem p).mp hp).1
  have hedge : (fun x y => y ∈ (s.links x).parents) = s.SpendsFrom := by
    funext x y
    exact propext (hs.parents x y)
  refine ⟨A, ?_, hAnd, fun a => ?_⟩
  · simp only [calculateMemPoolAncestors, if_true, hps, walkAncestors_noLimits hs.keys, hA,
      Option.map_some]
  · rw [hAmem, hedge]
    simp only [hmem]

/-- The new entry: it has no descendants, and the fee delta that was asked for. -/
theorem Addable.withDelta {entry : CTxMemPoolEntry} (ha : Addable s entry) (delta : ℤ)
    (size fee : Uint256 → ℤ) :
    (entry.withDelta delta).feeDelta = delta ∧
      (entry.withDelta delta).nTxSize = entry.nTxSize ∧
      (entry.withDelta delta).TotalsAt size fee ∅ := by
  unfold CTxMemPoolEntry.withDelta
  by_cases hd : delta = 0
  · rw [if_pos hd]
    refine ⟨ha.feeDelta.trans hd.symm, rfl, ?_, ?_, ?_⟩
    · simp [ha.count]
    · simp [ha.size]
    · simp [ha.fees, ha.feeDelta]
  · rw [if_neg hd]
    refine ⟨rfl, rfl, ?_, ?_, ?_⟩
    · simp [CTxMemPoolEntry.updateFeeDelta, ha.count]
    · simp [CTxMemPoolEntry.updateFeeDelta, ha.size]
    · simp [CTxMemPoolEntry.updateFeeDelta, ha.fees, ha.feeDelta]

/-- The edges of a pool with one more transaction. -/
theorem Addable.spendsFrom {entry : CTxMemPoolEntry} (ha : Addable s entry)
    (htx : TxAdded s entry.tx s')
    (c p : Uint256) : s'.SpendsFrom c p ↔ s.SpendsFrom c p ∨
      (c = entry.tx.hash ∧ s.hasTx p = true ∧ ∃ o ∈ entry.tx.prevouts, o.hash = p) := by
  have hhas : ∀ y, y ≠ entry.tx.hash → s'.hasTx y = s.hasTx y := by
    intro y hy
    rw [hasTx_eq, htx, if_neg hy, hasTx_eq]
  constructor
  · rintro ⟨tx, hc, hp, o, ho, rfl⟩
    rw [htx] at hc
    by_cases hce : c = entry.tx.hash
    · rw [if_pos hce] at hc
      obtain rfl := Option.some.inj hc
      rw [hhas _ (ha.not_self o ho)] at hp
      exact .inr ⟨hce, hp, o, ho, rfl⟩
    · rw [if_neg hce] at hc
      rw [hhas _ (ha.childless c tx hc o ho)] at hp
      exact .inl ⟨tx, hc, hp, o, ho, rfl⟩
  · have hne : ∀ y, s.hasTx y = true → y ≠ entry.tx.hash := by
      rintro y hy rfl
      rw [ha.absent] at hy
      cases hy
    rintro (h | ⟨rfl, hp, o, ho, rfl⟩)
    · have hc := h.hasTx_left
      obtain ⟨tx, htxc, hp, ho⟩ := h
      refine ⟨tx, ?_, (hhas p (hne p hp)).trans hp, ho⟩
      rw [htx, if_neg (hne c hc)]
      exact htxc
    · refine ⟨entry.tx, ?_, (hhas _ (hne _ hp)).trans hp, o, ho, rfl⟩
      rw [htx, if_pos rfl]

/-- Nothing leads to the new transaction. -/
theorem Addable.not_spendsFrom {entry : CTxMemPoolEntry} (ha : Addable s entry)
    (htx : TxAdded s entry.tx s')
    (c : Uint256) : ¬ s'.SpendsFrom c entry.tx.hash := by
  rw [ha.spendsFrom htx]
  rintro (h | ⟨-, h, -⟩)
  · have := h.hasTx_right
    rw [ha.absent] at this
    cases this
  · rw [ha.absent] at h
    cases h

/-- The descendants in a pool with one more transaction. -/
theorem Addable.descendants {entry : CTxMemPoolEntry} (ha : Addable s entry)
    (htx : TxAdded s entry.tx s')
    {A : SetEntries}
    (hAmem : ∀ a, a ∈ A ↔ ∃ p, (s.hasTx p = true ∧ ∃ o ∈ entry.tx.prevouts, o.hash = p) ∧
      Relation.ReflTransGen s.SpendsFrom p a) (a : Uint256) :
    s'.descendants a
      = if a ∈ A then insert entry.tx.hash (s.descendants a) else s.descendants a := by
  have hnew : ∀ y, ¬ s.SpendsFrom entry.tx.hash y := by
    intro y h
    have := h.hasTx_left
    rw [ha.absent] at this
    cases this
  have hx : entry.tx.hash ∉ s.descendants a := by
    rw [mem_descendants]
    intro h
    obtain ⟨b, hb, -⟩ := Relation.TransGen.head'_iff.mp h
    exact hnew b hb
  ext d
  by_cases hd : d = entry.tx.hash
  · subst hd
    rw [mem_descendants, Paths.transGen_new (ha.spendsFrom htx) (ha.not_spendsFrom htx) hnew,
      ← hAmem]
    split
    · next h => simp [h]
    · next h => simp [h, hx]
  · rw [mem_descendants, Paths.transGen_of_ne (ha.spendsFrom htx) (ha.not_spendsFrom htx) hd,
      ← mem_descendants]
    split
    · simp [hd]
    · rfl

variable (mu) in
/-- The links before the totals of the ancestors are updated. -/
theorem Addable.links {entry : CTxMemPoolEntry} (hs : Graph s) (ha : Addable s entry) :
    ∃ t ps, (s.putEntry entry.tx.hash entry).setParents mu entry.tx.hash
        (entry.tx.prevouts.map COutPoint.hash).dedup = t ∧
      t.getMemPoolParents entry.tx.hash = some ps ∧ ps.Nodup ∧
      (∀ p, p ∈ ps ↔ s.hasTx p = true ∧ ∃ o ∈ entry.tx.prevouts, o.hash = p) ∧
      LinkKeys t ∧ t.mapTx = (s.putEntry entry.tx.hash entry).mapTx ∧
      t.links entry.tx.hash = ⟨ps, []⟩ ∧
      ∀ h, h ≠ entry.tx.hash → t.links h = s.links h := by
  have hlookup₀ : ∀ y, y ≠ entry.tx.hash →
      (s.putEntry entry.tx.hash entry).mapTx.lookup y = s.mapTx.lookup y :=
    fun y hy => AList.lookup_insert_ne hy
  have hx₀ : (s.putEntry entry.tx.hash entry).hasTx entry.tx.hash = true := by
    rw [hasTx, putEntry, AList.lookup_insert]
    rfl
  have hlinks₀ : (s.putEntry entry.tx.hash entry).links entry.tx.hash = ⟨[], []⟩ := by
    rw [CTxMemPool.links, putEntry, AList.lookup_insert]
    rfl
  have hkeys₀ : LinkKeys (s.putEntry entry.tx.hash entry) := by
    intro y
    by_cases hy : y = entry.tx.hash
    · subst hy
      rw [hx₀, putEntry, AList.lookup_insert]
      rfl
    · rw [hasTx, hlookup₀ y hy, putEntry, AList.lookup_insert_ne hy]
      exact hs.keys y
  obtain ⟨hmap, hne, hch, hpar, hnd, hkeys⟩ := links_setParents mu (x := entry.tx.hash)
    (entry.tx.prevouts.map COutPoint.hash).dedup (s.putEntry entry.tx.hash entry)
  rw [hlinks₀] at hch hpar hnd
  have hkeys := hkeys hkeys₀ hx₀
  refine ⟨_, _, rfl, getMemPoolParents_of_hasTx hkeys ?_, hnd List.nodup_nil, fun p => ?_, hkeys,
    hmap, ?_, fun h hh => ?_⟩
  · rw [hasTx, hmap]
    exact hx₀
  · rw [hpar, List.mem_dedup, List.mem_map]
    constructor
    · rintro (h | ⟨⟨o, ho, rfl⟩, hp⟩)
      · cases h
      · rw [hasTx, hlookup₀ _ (ha.not_self o ho)] at hp
        exact ⟨hp, o, ho, rfl⟩
    · rintro ⟨hp, o, ho, rfl⟩
      refine .inr ⟨⟨o, ho, rfl⟩, ?_⟩
      rw [hasTx, hlookup₀ _ (ha.not_self o ho)]
      exact hp
  · exact congrArg (TxLinks.mk _) hch
  · rw [hne h hh, CTxMemPool.links, putEntry, AList.lookup_insert_ne hh, CTxMemPool.links]

variable (mu) in
/-- When the links are in place, the pool with the new entry is a graph up to the
totals. -/
theorem Addable.shape {entry : CTxMemPoolEntry} (hs : Graph s) (ha : Addable s entry) :
    ∃ ps, ((s.putEntry entry.tx.hash entry).setParents mu entry.tx.hash
        (entry.tx.prevouts.map COutPoint.hash).dedup).getMemPoolParents entry.tx.hash = some ps ∧
      ∃ t, ps.foldl (fun s p => s.updateChild mu p entry.tx.hash true)
          ((s.putEntry entry.tx.hash entry).setParents mu entry.tx.hash
            (entry.tx.prevouts.map COutPoint.hash).dedup) = t ∧ Shape t ∧
        TxAdded s entry.tx t ∧ ∀ y, t.mapTx.lookup y = if y = entry.tx.hash then
          some (entry.withDelta ((s.mapDeltas.lookup entry.tx.hash).getD 0))
          else s.mapTx.lookup y := by
  obtain ⟨t, ps, ht, hps, hpsnd, hpsmem, hkeys, hmap, hlx, hlinks⟩ := ha.links mu hs
  have hframe : Frame (s.putEntry entry.tx.hash entry)
      (ps.foldl (fun s p => s.updateChild mu p entry.tx.hash true) t) := by
    rw [← ht]
    exact (frame_setParents mu _ _ _).trans
      (frame_foldl (fun s x => frame_updateChild mu s x _ true) _ _)
  rw [ht]
  refine ⟨ps, hps, _, rfl, ?_⟩
  have hne : ∀ y, s.hasTx y = true → y ≠ entry.tx.hash := by
    rintro y hy rfl
    rw [ha.absent] at hy
    cases hy
  have hxps : entry.tx.hash ∉ ps := fun h => hne _ ((hpsmem _).mp h).1 rfl
  -- the child links of the parents
  have hlinks₁ := links_foldl_updateChild mu hpsnd entry.tx.hash true t
  have hkeys₁ : LinkKeys (ps.foldl (fun s p => s.updateChild mu p entry.tx.hash true) t) :=
    linkKeys_foldl (fun s y => frame_updateChild mu s y entry.tx.hash true)
      (fun s y hk hy => linkKeys_updateChild hk hy) hkeys fun y hy => by
        have hy' := ((hpsmem y).mp hy).1
        rw [hasTx, hmap, putEntry, AList.lookup_insert_ne (hne y hy')]
        exact hy'
  have hmap₁ := (mapTx_foldl_updateChild mu ps entry.tx.hash true t).trans hmap
  generalize ps.foldl (fun s p => s.updateChild mu p entry.tx.hash true) t = t₁ at *
  have hlookup : ∀ y, t₁.mapTx.lookup y = if y = entry.tx.hash then
      some (entry.withDelta ((s.mapDeltas.lookup entry.tx.hash).getD 0))
      else s.mapTx.lookup y := by
    intro y
    rw [hmap₁, putEntry]
    by_cases hy : y = entry.tx.hash
    · subst hy
      rw [if_pos rfl, AList.lookup_insert]
    · rw [if_neg hy, AList.lookup_insert_ne hy]
  have htx : TxAdded s entry.tx t₁ := by
    intro y
    rw [txAt, hlookup]
    split
    · exact congrArg some (tx_withDelta entry _)
    · rfl
  have hspends := ha.spendsFrom htx
  have hnot := ha.not_spendsFrom htx
  have hnew : ∀ p, ¬ s.SpendsFrom entry.tx.hash p := fun p h => hne _ h.hasTx_left rfl
  obtain ⟨hdelta, hsize, -⟩ := ha.withDelta ((s.mapDeltas.lookup entry.tx.hash).getD 0) 0 0
  refine ⟨⟨?_, hkeys₁, fun c p => ?_, fun c p => ?_, fun h => ?_, fun h => ?_,
    fun h hcycle => ?_, fun h e he => ?_, fun h e he => ?_⟩, htx, hlookup⟩
  · exact hs.next.insert (by simpa [hasTx_eq] using ha.absent) ha.nodup ha.free htx hframe.next
  · rw [hlinks₁, hspends]
    by_cases hc : c = entry.tx.hash
    · rw [hc, if_neg hxps, hlx, hpsmem]
      simp [hnew]
    · have hpar : p ∈ (t.links c).parents ↔ s.SpendsFrom c p := by
        rw [hlinks c hc]
        exact hs.parents c p
      simp only [hc, false_and, or_false]
      rw [← hpar]
      split
      · rfl
      · rfl
  · rw [hlinks₁]
    by_cases hp : p = entry.tx.hash
    · rw [hp, if_neg hxps, hlx]
      simp [hnot]
    · rw [hspends, hlinks p hp, ← hpsmem]
      split
      · next h =>
        simp only [if_true, List.mem_insert_iff, hs.children, h, and_true]
        exact or_comm
      · next h => simp only [hs.children, h, and_false, or_false]
  · have hnd : (t.links h).parents.Nodup := by
      by_cases hh : h = entry.tx.hash
      · rw [hh, hlx]
        exact hpsnd
      · rw [hlinks h hh]
        exact hs.parents_nodup h
    rw [hlinks₁]
    split
    · exact hnd
    · exact hnd
  · have hnd : (t.links h).children.Nodup := by
      by_cases hh : h = entry.tx.hash
      · rw [hh, hlx]
        exact List.nodup_nil
      · rw [hlinks h hh]
        exact hs.children_nodup h
    rw [hlinks₁]
    split
    · exact hnd.insert
    · exact hnd
  · by_cases hh : h = entry.tx.hash
    · obtain ⟨b, -, hb⟩ := Relation.TransGen.tail'_iff.mp hcycle
      rw [hh] at hb
      exact hnot b hb
    · exact hs.acyclic h ((Paths.transGen_of_ne hspends hnot hh).mp hcycle)
  · rw [hlookup] at he
    split at he
    · obtain rfl := Option.some.inj he
      rw [hsize]
      exact ha.size_pos
    · exact hs.size_pos h e he
  · rw [hframe.deltas, putEntry]
    rw [hlookup] at he
    split at he
    · next hh =>
      obtain rfl := Option.some.inj he
      rw [hh]
      exact hdelta
    · exact hs.delta h e he

variable (mu) in
/-- **Adding an entry** keeps the graph. -/
theorem addUnchecked_graph (hs : Graph s) {entry : CTxMemPoolEntry} (ha : Addable s entry)
    {A : SetEntries} (hAnd : A.Nodup)
    (hAmem : ∀ a, a ∈ A ↔ ∃ p, (s.hasTx p = true ∧ ∃ o ∈ entry.tx.prevouts, o.hash = p) ∧
      Relation.ReflTransGen s.SpendsFrom p a) :
    ∃ s', s.addUnchecked mu entry.tx.hash entry A = some s' ∧ Graph s' := by
  obtain ⟨ps, hps, t, ht, hshape, htx, hlookup⟩ := ha.shape mu hs
  have htotals := fun size fee =>
    (ha.withDelta ((s.mapDeltas.lookup entry.tx.hash).getD 0) size fee).2.2
  generalize entry.withDelta ((s.mapDeltas.lookup entry.tx.hash).getD 0) = e₁
    at hlookup htotals
  have hne : ∀ y, s.hasTx y = true → y ≠ entry.tx.hash := by
    rintro y hy rfl
    rw [ha.absent] at hy
    cases hy
  have hx : t.mapTx.lookup entry.tx.hash = some e₁ := by rw [hlookup, if_pos rfl]
  have hother : ∀ y, y ≠ entry.tx.hash → t.coreAt y = s.coreAt y := by
    intro y hy
    rw [coreAt, hlookup, if_neg hy, coreAt]
  have hAin : ∀ a ∈ A, s.hasTx a = true := by
    intro a h
    obtain ⟨p, ⟨hp, -⟩, hpa⟩ := (hAmem a).mp h
    rcases Relation.ReflTransGen.cases_tail hpa with rfl | ⟨y, -, hy⟩
    · exact hp
    · exact hy.hasTx_right
  have hxdesc : ∀ a, entry.tx.hash ∉ s.descendants a := by
    intro a h
    obtain ⟨b, hb, -⟩ := Relation.TransGen.head'_iff.mp (mem_descendants.mp h)
    exact hne _ hb.hasTx_left rfl
  have hold : ∀ a d, s.mapTx.lookup a = some d →
      d.TotalsAt t.sizeAt t.feeAt (s.descendants a) := by
    intro a d hd
    have hdne : ∀ y ∈ s.descendants a, y ≠ entry.tx.hash := by
      rintro y hy rfl
      exact hxdesc a hy
    refine (hs.totals a d hd).congr (fun y hy => ?_) fun y hy => ?_
    · rw [sizeAt, sizeAt, hother y (hdne y hy)]
    · rw [feeAt, feeAt, hother y (hdne y hy)]
  -- the ancestors have one more descendant
  obtain ⟨m, hm, hframe, htotals'⟩ := foldlM_updateState (s := t) (x := 1 * e₁.nTxSize)
    (y := 1 * e₁.modifiedFee) (z := 1) (F := t.descendants) hAnd
    (by
      intro a h
      obtain ⟨d, hd⟩ := hasTx_iff_lookup.mp (hAin a h)
      obtain ⟨d', hd', htot⟩ := (hold a d hd).insert (hxdesc a) (hs.size_pos a d hd)
        t.sizeAt_nonneg
      rw [sizeAt_of_lookup hx, feeAt_of_lookup hx] at hd'
      rw [ha.descendants htx hAmem, if_pos h]
      exact ⟨d, d', by rw [hlookup, if_neg (hne a (hAin a h))]; exact hd, hd', htot⟩)
    (by
      intro a d h hd
      rw [ha.descendants htx hAmem, if_neg h]
      rw [hlookup] at hd
      by_cases hax : a = entry.tx.hash
      · rw [if_pos hax] at hd
        obtain rfl := Option.some.inj hd
        have hempty : s.descendants a = ∅ := by
          refine Finset.eq_empty_of_forall_notMem fun y hy => ?_
          obtain ⟨b, -, hb⟩ := Relation.TransGen.tail'_iff.mp (mem_descendants.mp hy)
          exact hne _ hb.hasTx_right hax
        rw [hempty]
        exact htotals _ _
      · rw [if_neg hax] at hd
        exact hold a d hd)
  have hrun : s.addUnchecked mu entry.tx.hash entry A = some { t with
      mapTx := m
      totalTxSize := t.totalTxSize + entry.nTxSize } := by
    simp only [addUnchecked, updateAncestorsOf, hps, ht, Option.bind_eq_bind, Option.bind_some,
      hx, if_true, hm]
  have hframe' : Frame t { t with
      mapTx := m
      totalTxSize := t.totalTxSize + entry.nTxSize } := ⟨hframe.core, rfl, rfl, rfl⟩
  refine ⟨_, hrun, (hshape.frame hframe' rfl).graph fun a e he => ?_⟩
  rw [hframe'.sizeAt, hframe'.feeAt, hframe'.descendants]
  exact htotals' a e he

/-! ## Fee deltas -/

/-- The graph does not depend on the other members, as long as the deltas of the
transactions of the pool are the same. -/
theorem Graph.of_eq (h : Graph s) (htx : s'.mapTx = s.mapTx) (hlinks : s'.mapLinks = s.mapLinks)
    (hnext : s'.mapNextTx = s.mapNextTx)
    (hdelta : ∀ x, s.hasTx x = true →
      (s'.mapDeltas.lookup x).getD 0 = (s.mapDeltas.lookup x).getD 0) : Graph s' := by
  obtain ⟨mapTx, mapLinks, mapNextTx, mapDeltas, total, inner, coins⟩ := s
  obtain ⟨mapTx', mapLinks', mapNextTx', mapDeltas', total', inner', coins'⟩ := s'
  simp only at htx hlinks hnext hdelta
  subst htx hlinks hnext
  exact ⟨⟨h.next.hash, h.next.nodup, h.next.next⟩, h.keys, h.parents, h.children,
    h.parents_nodup, h.children_nodup, h.acyclic, h.size_pos,
    fun x e he => (h.delta x e he).trans (hdelta x (hasTx_iff_lookup.mpr ⟨e, he⟩)).symm, h.totals⟩

theorem Graph.clearPrioritisation (h : Graph s) {x : Uint256} (hx : s.hasTx x = false) :
    Graph (s.clearPrioritisation x) := by
  refine h.of_eq rfl rfl rfl fun y hy => ?_
  have hne : y ≠ x := by
    rintro rfl
    rw [hx] at hy
    cases hy
  rw [CTxMemPool.clearPrioritisation, AList.lookup_erase_ne hne]

end CTxMemPool

namespace CTxMemPoolEntry

variable {size fee : Uint256 → ℤ} {F : Finset Uint256} {e : CTxMemPoolEntry} {d : Uint256}

/-- The fee of one descendant changes. -/
theorem TotalsAt.addFee (h : TotalsAt size fee F e) (hd : d ∈ F) (hpos : 0 < e.nTxSize)
    (hsize : ∀ x, 0 ≤ size x) (delta : ℤ) :
    ∃ e', e.updateState 0 delta 0 = some e' ∧
      TotalsAt size (Function.update fee d (fee d + delta)) F e' := by
  have hsum := Finset.add_sum_erase F fee hd
  have hsum' := Finset.add_sum_erase F (Function.update fee d (fee d + delta)) hd
  have hrest : ∑ x ∈ F.erase d, Function.update fee d (fee d + delta) x
      = ∑ x ∈ F.erase d, fee x :=
    Finset.sum_congr rfl fun x hx => Function.update_of_ne (Finset.ne_of_mem_erase hx) _ _
  rw [hrest, Function.update_self] at hsum'
  have hnonneg : 0 ≤ ∑ x ∈ F, size x := Finset.sum_nonneg fun x _ => hsize x
  obtain ⟨h₁, h₂, h₃⟩ := h
  refine ⟨_, updateState_eq_some (by omega) (by omega) (by omega), ?_, ?_, ?_⟩
  · simp only
    omega
  · simp only
    omega
  · simp only
    omega

theorem TotalsAt.updateFee (h : TotalsAt size fee F e) (hd : d ∉ F) (v : ℤ) :
    TotalsAt size (Function.update fee d v) F e := by
  refine h.congr (fun _ _ => rfl) fun x hx => Function.update_of_ne ?_ _ _
  rintro rfl
  exact hd hx

end CTxMemPoolEntry

namespace CTxMemPool

variable {mu : MemUsage} {s s' t : CTxMemPool}

/-- The pool with the fee delta `delta` for the entry `e` of `x`, before the totals of the
ancestors are updated. -/
def setDelta (s : CTxMemPool) (x : Uint256) (e : CTxMemPoolEntry) (delta : ℤ) : CTxMemPool :=
  { s with
    mapDeltas := s.mapDeltas.insert x delta
    mapTx := s.mapTx.insert x (e.updateFeeDelta delta) }

section SetDelta

variable {x : Uint256} {e : CTxMemPoolEntry} (delta : ℤ)

theorem lookup_setDelta (y : Uint256) : (s.setDelta x e delta).mapTx.lookup y
    = if y = x then some (e.updateFeeDelta delta) else s.mapTx.lookup y := by
  by_cases hy : y = x
  · subst hy
    rw [if_pos rfl]
    exact AList.lookup_insert _
  · rw [if_neg hy]
    exact AList.lookup_insert_ne hy

variable (he : s.mapTx.lookup x = some e)

include he

theorem txAt_setDelta : (s.setDelta x e delta).txAt = s.txAt := by
  funext y
  rw [txAt, lookup_setDelta, txAt]
  split
  · next hy =>
    rw [hy, he]
    rfl
  · rfl

theorem spendsFrom_setDelta : (s.setDelta x e delta).SpendsFrom = s.SpendsFrom := by
  funext c p
  unfold SpendsFrom
  rw [txAt_setDelta delta he, hasTx_eq, txAt_setDelta delta he, hasTx_eq]

theorem sizeAt_setDelta : (s.setDelta x e delta).sizeAt = s.sizeAt := by
  funext y
  rw [sizeAt, coreAt, lookup_setDelta, sizeAt, coreAt]
  split
  · next hy =>
    rw [hy, he]
    rfl
  · rfl

theorem feeAt_setDelta : (s.setDelta x e delta).feeAt
    = Function.update s.feeAt x (s.feeAt x + (delta - e.feeDelta)) := by
  funext y
  rw [feeAt, coreAt, lookup_setDelta]
  by_cases hy : y = x
  · subst hy
    rw [if_pos rfl, Function.update_self, feeAt_of_lookup he]
    show e.nFee + delta = e.nFee + e.feeDelta + (delta - e.feeDelta)
    omega
  · rw [if_neg hy, Function.update_of_ne hy, feeAt, coreAt]

theorem Graph.shape_setDelta (hs : Graph s) : Shape (s.setDelta x e delta) := by
  refine ⟨hs.next.of_eq (txAt_setDelta delta he) rfl, fun h => ?_, fun c p => ?_, fun c p => ?_,
    hs.parents_nodup, hs.children_nodup, fun h => ?_, fun h d hd => ?_, fun h d hd => ?_⟩
  · rw [hasTx_eq, txAt_setDelta delta he, ← hasTx_eq]
    exact hs.keys h
  · rw [spendsFrom_setDelta delta he]
    exact hs.parents c p
  · rw [spendsFrom_setDelta delta he]
    exact hs.children c p
  · rw [spendsFrom_setDelta delta he]
    exact hs.acyclic h
  · rw [lookup_setDelta] at hd
    split at hd
    · obtain rfl := Option.some.inj hd
      exact hs.size_pos x e he
    · exact hs.size_pos h d hd
  · show d.feeDelta = ((s.mapDeltas.insert x delta).lookup h).getD 0
    rw [lookup_setDelta] at hd
    by_cases hh : h = x
    · rw [if_pos hh] at hd
      obtain rfl := Option.some.inj hd
      rw [hh, AList.lookup_insert]
      rfl
    · rw [if_neg hh] at hd
      rw [AList.lookup_insert_ne hh]
      exact hs.delta h d hd

theorem descendants_setDelta : (s.setDelta x e delta).descendants = s.descendants := by
  funext a
  ext d
  rw [mem_descendants, mem_descendants, spendsFrom_setDelta delta he]

/-- The entry itself has the new delta in its totals. -/
theorem Graph.totals_setDelta (hs : Graph s) {a : Uint256} {d : CTxMemPoolEntry}
    (hxa : x ∉ s.descendants a) (hd : (s.setDelta x e delta).mapTx.lookup a = some d) :
    d.TotalsAt (s.setDelta x e delta).sizeAt (s.setDelta x e delta).feeAt (s.descendants a) := by
  rw [sizeAt_setDelta delta he, feeAt_setDelta delta he]
  rw [lookup_setDelta] at hd
  by_cases hax : a = x
  · rw [if_pos hax] at hd
    obtain rfl := Option.some.inj hd
    rw [hax] at hxa ⊢
    obtain ⟨h₁, h₂, h₃⟩ := (hs.totals x e he).updateFee hxa (s.feeAt x + (delta - e.feeDelta))
    refine ⟨h₁, h₂, ?_⟩
    rw [CTxMemPoolEntry.updateFeeDelta]
    simp only
    omega
  · rw [if_neg hax] at hd
    exact (hs.totals a d hd).updateFee hxa _

end SetDelta

/-- **A new fee delta** keeps the graph. -/
theorem prioritiseTransaction_graph (hs : Graph s) (x : Uint256) (nFeeDelta : ℤ) :
    ∃ s', s.prioritiseTransaction x nFeeDelta = some s' ∧ Graph s' ∧ s'.txAt = s.txAt ∧
      s'.coins = s.coins := by
  unfold prioritiseTransaction
  simp only
  set delta := (s.mapDeltas.lookup x).getD 0 + nFeeDelta with hdelta
  cases he : s.mapTx.lookup x with
  | none =>
    refine ⟨_, rfl, hs.of_eq rfl rfl rfl fun y hy => ?_, rfl, rfl⟩
    have hyx : y ≠ x := by
      rintro rfl
      rw [hasTx, he] at hy
      cases hy
    rw [AList.lookup_insert_ne hyx]
  | some e =>
    have hchange : delta - e.feeDelta = nFeeDelta := by
      rw [hs.delta x e he]
      omega
    have hshape := hs.shape_setDelta delta he
    have hetx : e.tx.hash = x := hs.next.hash x e.tx (by rw [txAt, he]; rfl)
    have hhas : ∀ y, (s.setDelta x e delta).hasTx y = s.hasTx y := by
      intro y
      rw [hasTx_eq, txAt_setDelta delta he, hasTx_eq]
    obtain ⟨A, hA, hAnd, hAmem⟩ := ancestors_of_entry (s := s.setDelta x e delta) hshape.keys
      (fun c p hp => ((hshape.parents c p).mp hp).hasTx_right) hshape.parents_nodup
      (e := e.updateFeeDelta delta) (by
        rw [hhas]
        exact hasTx_iff_lookup.mpr ⟨e, by rw [← he, ← hetx]; rfl⟩)
    have hA' : ∀ a, a ∈ A ↔ x ∈ s.descendants a := by
      intro a
      have hedge : (fun c p => p ∈ ((s.setDelta x e delta).links c).parents) = s.SpendsFrom := by
        funext c p
        exact propext (hs.parents c p)
      rw [hAmem, hedge, mem_descendants, ← hetx]
      rfl
    -- the ancestors have a descendant with another fee
    obtain ⟨m, hm, hframe, htotals⟩ := foldlM_updateState (s := s.setDelta x e delta) (x := 0)
      (y := nFeeDelta) (z := 0) (F := s.descendants) hAnd
      (by
        intro a ha
        have hxa := (hA' a).mp ha
        obtain ⟨b, -, hb⟩ := Relation.TransGen.tail'_iff.mp (mem_descendants.mp hxa)
        obtain ⟨d, hd⟩ := hasTx_iff_lookup.mp hb.hasTx_right
        obtain ⟨d', hd', htot⟩ := (hs.totals a d hd).addFee hxa (hs.size_pos a d hd)
          s.sizeAt_nonneg nFeeDelta
        rw [sizeAt_setDelta delta he, feeAt_setDelta delta he, hchange]
        refine ⟨d, d', ?_, hd', htot⟩
        rw [lookup_setDelta, if_neg, hd]
        rintro rfl
        exact hs.acyclic a (mem_descendants.mp hxa))
      (fun a d ha hd => hs.totals_setDelta delta he (fun h => ha ((hA' a).mpr h)) hd)
    have hmod : CTxMemPool.modify { s with mapDeltas := s.mapDeltas.insert x delta } x
        (fun e => some (e.updateFeeDelta delta)) = some (s.setDelta x e delta) := by
      simp [modify, he, setDelta]
    refine ⟨{ s.setDelta x e delta with mapTx := m }, ?_,
      (hshape.frame hframe rfl).graph fun a d hd => ?_, ?_, rfl⟩
    · have hx₁ : (s.setDelta x e delta).mapTx.lookup x = some (e.updateFeeDelta delta) := by
        rw [lookup_setDelta, if_pos rfl]
      simp only [hmod, hx₁, hA, Option.bind_eq_bind, Option.bind_some]
      exact hm
    · rw [hframe.sizeAt, hframe.feeAt, hframe.descendants, descendants_setDelta delta he]
      exact htotals a d hd
    · rw [hframe.txAt, txAt_setDelta delta he]

/-! ## Removal with all descendants -/

/-- With an entry, `R` has everything that spends from it. -/
def DownClosed (s : CTxMemPool) (R : SetEntries) : Prop :=
  ∀ c r, r ∈ R → s.SpendsFrom c r → c ∈ R

theorem DownClosed.separated {R : SetEntries} (h : DownClosed s R) : Separated s R := by
  intro d r a hd hr _ hdr _
  apply hd
  induction hdr using Relation.TransGen.head_induction_on with
  | single hdr => exact h _ r hr hdr
  | head hxy _ ih => exact h _ _ (ih fun hy => hd (h _ _ hy hxy)) hxy

/-- `v` has some of the transactions of `s`, and with a transaction the ones that it
spends from. -/
structure Shrinks (s v : CTxMemPool) : Prop where
  sub : ∀ x tx, v.txAt x = some tx → s.txAt x = some tx
  parents : ∀ c p, v.hasTx c = true → s.SpendsFrom c p → v.hasTx p = true
  coins : v.coins = s.coins

theorem Shrinks.hasTx (h : Shrinks s t) {x : Uint256} (hx : t.hasTx x = true) :
    s.hasTx x = true := by
  rw [hasTx_eq, Option.isSome_iff_exists] at hx ⊢
  obtain ⟨tx, htx⟩ := hx
  exact ⟨tx, h.sub x tx htx⟩

theorem Shrinks.refl (s : CTxMemPool) : Shrinks s s :=
  ⟨fun _ _ h => h, fun _ _ _ h => h.hasTx_right, rfl⟩

theorem Shrinks.trans {u : CTxMemPool} (h : Shrinks s t) (h' : Shrinks t u) : Shrinks s u where
  sub x tx hx := h.sub x tx (h'.sub x tx hx)
  parents c p hc hcp := by
    have hc' := h'.hasTx hc
    have hp := h.parents c p hc' hcp
    obtain ⟨tx, htx, -, ho⟩ := hcp
    obtain ⟨tx', htx'⟩ := Option.isSome_iff_exists.mp ((hasTx_eq t c).symm.trans hc')
    obtain rfl : tx = tx' := Option.some.inj (htx.symm.trans (h.sub c tx' htx'))
    exact h'.parents c p hc ⟨tx, htx', hp, ho⟩
  coins := h'.coins.trans h.coins

theorem Removed.shrinks {R : SetEntries} {v : CTxMemPool} (h : Removed s R v)
    (hR : DownClosed s R) : Shrinks s v where
  sub x tx hx := by
    rw [h.txAt] at hx
    split at hx
    · cases hx
    · exact hx
  parents c p hc hcp := by
    obtain ⟨-, hc⟩ := h.hasTx.mp hc
    exact h.hasTx.mpr ⟨hcp.hasTx_right, fun hp => hc (hR c p hp hcp)⟩
  coins := h.coins

variable (mu) in
/-- Some entries are removed with all their descendants. -/
theorem removeDescendants_graph (hs : Graph s) {l : SetEntries}
    (hl : ∀ x ∈ l, s.hasTx x = true) :
    ∃ R v, l.foldlM s.calculateDescendants [] = some R ∧ s.removeStaged mu R = some v ∧
      Graph v ∧ Removed s R v ∧ DownClosed s R ∧ (∀ r ∈ R, s.hasTx r = true) ∧
      ∀ x, x ∈ R ↔ ∃ y ∈ l, Relation.ReflTransGen s.SpendsFrom x y := by
  obtain ⟨R, hR, hnd, hmem⟩ := descendants_of_entries hs.keys
    (fun x y hy => hs.children_hasTx hy) hl List.nodup_nil (by simp) (by simp)
  have hswap : (fun x y => y ∈ (s.links x).children) = Function.swap s.SpendsFrom := by
    funext x y
    exact propext (hs.children y x)
  have hmem' : ∀ x, x ∈ R ↔ ∃ y ∈ l, Relation.ReflTransGen s.SpendsFrom x y := by
    intro x
    rw [hmem, hswap]
    simp [Relation.reflTransGen_swap]
  have hin : ∀ r ∈ R, s.hasTx r = true := by
    intro r hr
    obtain ⟨y, hy, hry⟩ := (hmem' r).mp hr
    rcases Relation.ReflTransGen.cases_head hry with rfl | ⟨z, hz, -⟩
    · exact hl r hy
    · exact hz.hasTx_left
  have hclosed : DownClosed s R := by
    intro c r hr hcr
    obtain ⟨y, hy, hry⟩ := (hmem' r).mp hr
    exact (hmem' c).mpr ⟨y, hy, .head hcr hry⟩
  obtain ⟨v, hv, hrem, hgraph⟩ := removeStaged_graph mu hs hnd hin hclosed.separated
  exact ⟨R, v, hR, hv, hgraph, hrem, hclosed, hin, hmem'⟩

theorem mapM_txAt {l : SetEntries} (hl : ∀ x ∈ l, s.hasTx x = true) :
    ∃ txs, l.mapM (fun it => (s.mapTx.lookup it).map CTxMemPoolEntry.tx) = some txs ∧
      ∀ tx ∈ txs, ∃ x ∈ l, s.txAt x = some tx := by
  induction l with
  | nil => exact ⟨[], rfl, by simp⟩
  | cons x l ih =>
    obtain ⟨e, he⟩ := hasTx_iff_lookup.mp (hl x (by simp))
    obtain ⟨txs, htxs, hmem⟩ := ih fun y hy => hl y (by simp [hy])
    refine ⟨e.tx :: txs, by simp [List.mapM_cons, he, htxs], fun tx htx => ?_⟩
    rcases List.mem_cons.mp htx with rfl | htx
    · exact ⟨x, List.mem_cons_self, by rw [txAt, he]; rfl⟩
    · obtain ⟨y, hy, hytx⟩ := hmem tx htx
      exact ⟨y, List.mem_cons_of_mem x hy, hytx⟩

/-- What a recursive removal starts from: the transaction, or what spends one of its outputs. -/
def Roots (s : CTxMemPool) (tx : CTransaction) (x : Uint256) : Prop :=
  if s.hasTx tx.hash then x = tx.hash
  else ∃ tx', s.txAt x = some tx' ∧ ∃ o ∈ tx'.prevouts, o.hash = tx.hash ∧ o.n < tx.vout.length

theorem Roots.hasTx {tx : CTransaction} {x : Uint256} (h : s.Roots tx x) : s.hasTx x = true := by
  unfold Roots at h
  split at h
  · next hx =>
    rw [h]
    exact hx
  · obtain ⟨tx', hx, -⟩ := h
    rw [hasTx_eq, hx]
    rfl

/-- The entries that a recursive removal starts from. -/
theorem txToRemove_spec (hs : NextExact s) (tx : CTransaction) :
    ∃ l, s.txToRemove tx true = some l ∧ ∀ x, x ∈ l ↔ s.Roots tx x := by
  unfold txToRemove Roots
  by_cases hx : s.hasTx tx.hash = true
  · rw [if_pos hx]
    refine ⟨[tx.hash], rfl, fun x => ?_⟩
    rw [if_pos hx, List.mem_singleton]
  · rw [if_neg hx, if_pos rfl]
    -- outputs are looked up one by one
    have hloop : ∀ f : SetEntries → ℕ → Option SetEntries,
        (∀ l i, s.mapNextTx.lookup ⟨tx.hash, i⟩ = none → f l i = some l) →
        (∀ l i p, s.mapNextTx.lookup ⟨tx.hash, i⟩ = some p → f l i = some (l.insert p.ptx.hash)) →
        ∀ (is : List ℕ) (l : SetEntries), ∃ r, is.foldlM f l = some r ∧
          ∀ x, x ∈ r ↔ x ∈ l ∨
            ∃ i ∈ is, ∃ p, s.mapNextTx.lookup ⟨tx.hash, i⟩ = some p ∧ p.ptx.hash = x := by
      intro f hnone hsome is
      induction is with
      | nil =>
        intro l
        exact ⟨l, rfl, by simp⟩
      | cons i is ih =>
        intro l
        rw [List.foldlM_cons]
        cases hi : s.mapNextTx.lookup ⟨tx.hash, i⟩ with
        | none =>
          obtain ⟨r, hr, hmem⟩ := ih l
          rw [hnone l i hi]
          exact ⟨r, hr, fun x => by rw [hmem]; simp [hi]⟩
        | some p =>
          obtain ⟨r, hr, hmem⟩ := ih (l.insert p.ptx.hash)
          rw [hsome l i p hi]
          refine ⟨r, hr, fun x => ?_⟩
          rw [hmem, List.mem_insert_iff]
          simp only [List.mem_cons, exists_eq_or_imp, hi, Option.some.injEq, exists_eq_left']
          rw [@eq_comm _ x, or_assoc, or_left_comm]
    have hroots : ∀ x, (if s.hasTx tx.hash = true then x = tx.hash
        else ∃ tx', s.txAt x = some tx' ∧
          ∃ o ∈ tx'.prevouts, o.hash = tx.hash ∧ o.n < tx.vout.length) ↔
        x ∈ ([] : SetEntries) ∨ ∃ i ∈ List.range tx.vout.length,
          ∃ p, s.mapNextTx.lookup ⟨tx.hash, i⟩ = some p ∧ p.ptx.hash = x := by
      intro x
      rw [if_neg hx]
      constructor
      · rintro ⟨tx', htx', o, ho, hhash, hlt⟩
        obtain ⟨n, hn⟩ := List.getElem?_of_mem ho
        obtain rfl := hs.hash x tx' htx'
        refine .inr ⟨o.n, List.mem_range.mpr hlt, ⟨tx', n⟩, ?_, rfl⟩
        rw [← hhash]
        exact (hs.next o ⟨tx', n⟩).mpr ⟨htx', hn⟩
      · rintro (h | ⟨i, hi, p, hp, rfl⟩)
        · cases h
        · obtain ⟨htx, hn⟩ := (hs.next _ _).mp hp
          exact ⟨p.ptx, htx, _, List.mem_of_getElem? hn, rfl, List.mem_range.mp hi⟩
    simp only [hroots]
    apply hloop
    · intro l i hi
      simp only [hi]
    · intro l i p hi
      have hp : s.hasTx p.ptx.hash = true := by
        rw [hasTx_eq, ((hs.next _ _).mp hi).1]
        rfl
      simp only [hi, hp, if_true]

variable (mu) in
/-- **Recursive `remove`**: what spends from the roots leaves, and nothing else. -/
theorem remove_spec (hs : Graph s) (tx : CTransaction) :
    ∃ removed R v, s.remove mu tx true = some (removed, v) ∧ Graph v ∧ Removed s R v ∧
      DownClosed s R ∧
      (∀ x, x ∈ R ↔ ∃ y, s.Roots tx y ∧ Relation.ReflTransGen s.SpendsFrom x y) ∧
      ∀ d ∈ removed, d.hash ∈ R ∧ s.txAt d.hash = some d := by
  obtain ⟨l, hl, hroots⟩ := txToRemove_spec hs.next tx
  obtain ⟨R, v, hR, hv, hgraph, hrem, hclosed, hRin, hmem⟩ :=
    removeDescendants_graph mu hs fun x hx => ((hroots x).mp hx).hasTx
  obtain ⟨removed, hremoved, hdeps⟩ := mapM_txAt hRin
  refine ⟨removed, R, v, ?_, hgraph, hrem, hclosed, fun x => ?_, fun d hd => ?_⟩
  · simp only [remove, allRemoves, hl, hR, hremoved, hv, if_true, Option.bind_eq_bind,
      Option.bind_some]
  · rw [hmem]
    simp only [hroots]
  · obtain ⟨x, hx, hxd⟩ := hdeps d hd
    obtain rfl := hs.next.hash x d hxd
    exact ⟨hx, hxd⟩

variable (mu) in
/-- Recursive `remove` takes the transaction out. -/
theorem remove_graph (hs : Graph s) (tx : CTransaction) :
    ∃ removed v, s.remove mu tx true = some (removed, v) ∧ Graph v ∧ Shrinks s v ∧
      v.mapDeltas = s.mapDeltas ∧ v.hasTx tx.hash = false := by
  obtain ⟨removed, R, v, hremove, hgraph, hrem, hclosed, hmem, -⟩ := remove_spec mu hs tx
  refine ⟨removed, v, hremove, hgraph, hrem.shrinks hclosed, hrem.deltas, ?_⟩
  rw [Bool.eq_false_iff]
  intro hx
  obtain ⟨hx, hxR⟩ := hrem.hasTx.mp hx
  have hroot : s.Roots tx tx.hash := by
    rw [Roots, if_pos hx]
  exact hxR ((hmem _).mpr ⟨_, hroot, .refl⟩)

variable (mu) in
/-- **`remove` of a transaction alone**, which spends from no transaction of the pool. -/
theorem remove_single_graph (hs : Graph s) {tx : CTransaction}
    (hroot : ∀ p, ¬ s.SpendsFrom tx.hash p) :
    ∃ removed v, s.remove mu tx false = some (removed, v) ∧ Graph v ∧
      v.mapDeltas = s.mapDeltas ∧ v.coins = s.coins ∧
      ∀ x, v.txAt x = if x = tx.hash then none else s.txAt x := by
  by_cases hx : s.hasTx tx.hash = true
  · have hin : ∀ r ∈ [tx.hash], s.hasTx r = true := by
      intro r hr
      obtain rfl := List.mem_singleton.mp hr
      exact hx
    have hsep : Separated s [tx.hash] := by
      intro d r a _ hr _ _ hra
      obtain rfl := List.mem_singleton.mp hr
      obtain ⟨b, hb, -⟩ := Relation.TransGen.head'_iff.mp hra
      exact hroot b hb
    obtain ⟨v, hv, hrem, hgraph⟩ :=
      removeStaged_graph mu hs (List.nodup_singleton tx.hash) hin hsep
    obtain ⟨removed, hremoved⟩ := mapM_txAt hin
    refine ⟨removed, v, ?_, hgraph, hrem.deltas, hrem.coins, fun x => ?_⟩
    · simp only [remove, allRemoves, txToRemove, hx, if_true, Bool.false_eq_true, if_false,
        Option.bind_eq_bind, Option.bind_some, hremoved, hv]
    · rw [hrem.txAt]
      simp
  · refine ⟨[], s, ?_, hs, rfl, rfl, fun x => ?_⟩
    · simp only [remove, allRemoves, txToRemove, hx, Bool.false_eq_true, if_false,
        Option.bind_eq_bind, Option.bind_some]
      rfl
    · split
      · next h =>
        rw [h]
        simpa [hasTx_eq] using hx
      · rfl

end CTxMemPool
