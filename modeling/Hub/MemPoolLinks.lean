/-
# The links of the memory pool

The transactions of a pool are the nodes of a graph: a transaction leads to the
transactions of the pool whose outputs it spends.  This module has what edits of the links
do, and what the two walks along the links find: `ancestors_of_entry` for
`CalculateMemPoolAncestors` without limits, and `descendants_of_entries` for
`CalculateDescendants`.
-/
import Hub.MemPoolRuns

namespace CTxMemPool

variable {mu : MemUsage} {s s' t : CTxMemPool}

/-! ## Edges -/

/-- `c` spends from `p`, and both are in the pool. -/
def SpendsFrom (s : CTxMemPool) (c p : Uint256) : Prop :=
  ∃ tx, s.txAt c = some tx ∧ s.hasTx p = true ∧ ∃ o ∈ tx.prevouts, o.hash = p

theorem hasTx_eq (s : CTxMemPool) (h : Uint256) : s.hasTx h = (s.txAt h).isSome := by
  rw [hasTx, txAt, Option.isSome_map]

theorem hasTx_iff_lookup {h : Uint256} :
    s.hasTx h = true ↔ ∃ e, s.mapTx.lookup h = some e := by
  rw [hasTx, Option.isSome_iff_exists]

theorem hasTx_iff_mem_keys {h : Uint256} : s.hasTx h = true ↔ h ∈ s.mapTx.keys.toFinset := by
  rw [hasTx, AList.lookup_isSome, List.mem_toFinset, AList.mem_keys]

theorem SpendsFrom.hasTx_left {c p : Uint256} (h : s.SpendsFrom c p) : s.hasTx c = true := by
  obtain ⟨tx, htx, -⟩ := h
  rw [hasTx_eq, htx]
  rfl

theorem SpendsFrom.hasTx_right {c p : Uint256} (h : s.SpendsFrom c p) : s.hasTx p = true := by
  obtain ⟨-, -, hp, -⟩ := h
  exact hp

theorem Frame.hasTx (h : Frame s s') (x : Uint256) : s'.hasTx x = s.hasTx x := by
  rw [hasTx_eq, hasTx_eq, h.txAt]

theorem Frame.lookup (h : Frame s s') {x : Uint256} {e' : CTxMemPoolEntry}
    (he : s'.mapTx.lookup x = some e') :
    ∃ e, s.mapTx.lookup x = some e ∧ e'.core = e.core := by
  have hcore := congrFun h.core x
  rw [coreAt, he, coreAt] at hcore
  obtain ⟨e, he, heq⟩ := Option.map_eq_some_iff.mp hcore.symm
  exact ⟨e, he, heq.symm⟩

theorem Frame.spendsFrom (h : Frame s s') : s'.SpendsFrom = s.SpendsFrom := by
  funext c p
  unfold SpendsFrom
  rw [h.txAt, h.hasTx]

open Classical in
/-- The transactions of the pool that spend from `a`, directly or not. -/
noncomputable def descendants (s : CTxMemPool) (a : Uint256) : Finset Uint256 :=
  s.mapTx.keys.toFinset.filter fun d => Relation.TransGen s.SpendsFrom d a

theorem mem_descendants {d a : Uint256} :
    d ∈ s.descendants a ↔ Relation.TransGen s.SpendsFrom d a := by
  classical
  rw [descendants, Finset.mem_filter]
  refine ⟨fun h => h.2, fun h => ⟨?_, h⟩⟩
  obtain ⟨b, hb, -⟩ := Relation.TransGen.head'_iff.mp h
  exact hasTx_iff_mem_keys.mp hb.hasTx_left

/-! ## Edits of the links -/

theorem links_updateChild (s : CTxMemPool) (x c h : Uint256) (add : Bool) :
    (s.updateChild mu x c add).links h = if h = x then
      { s.links x with children :=
        (if add then (s.links x).children.insert c else (s.links x).children.erase c) }
      else s.links h := by
  cases add with
  | false =>
    by_cases hx : h = x
    · subst hx
      simp [updateChild, links]
    · simp [updateChild, links, hx, AList.lookup_insert_ne hx]
  | true =>
    by_cases hx : h = x
    · subst hx
      simp [updateChild, links]
    · simp [updateChild, links, hx, AList.lookup_insert_ne hx]

theorem links_updateParent (s : CTxMemPool) (x p h : Uint256) (add : Bool) :
    (s.updateParent mu x p add).links h = if h = x then
      { s.links x with parents :=
        (if add then (s.links x).parents.insert p else (s.links x).parents.erase p) }
      else s.links h := by
  cases add with
  | false =>
    by_cases hx : h = x
    · subst hx
      simp [updateParent, links]
    · simp [updateParent, links, hx, AList.lookup_insert_ne hx]
  | true =>
    by_cases hx : h = x
    · subst hx
      simp [updateParent, links]
    · simp [updateParent, links, hx, AList.lookup_insert_ne hx]

/-- There are links exactly for the transactions of the pool. -/
def LinkKeys (s : CTxMemPool) : Prop :=
  ∀ h, (s.mapLinks.lookup h).isSome = s.hasTx h

theorem linkKeys_updateChild (hk : LinkKeys s) {x c : Uint256} {add : Bool}
    (hx : s.hasTx x = true) : LinkKeys (s.updateChild mu x c add) := by
  intro h
  rw [(frame_updateChild mu s x c add).hasTx]
  by_cases hh : h = x
  · subst hh
    cases add with
    | false => simp [updateChild, hx]
    | true => simp [updateChild, hx]
  · cases add with
    | false => simpa [updateChild, AList.lookup_insert_ne hh] using hk h
    | true => simpa [updateChild, AList.lookup_insert_ne hh] using hk h

theorem linkKeys_updateParent (hk : LinkKeys s) {x p : Uint256} {add : Bool}
    (hx : s.hasTx x = true) : LinkKeys (s.updateParent mu x p add) := by
  intro h
  rw [(frame_updateParent mu s x p add).hasTx]
  by_cases hh : h = x
  · subst hh
    cases add with
    | false => simp [updateParent, hx]
    | true => simp [updateParent, hx]
  · cases add with
    | false => simpa [updateParent, AList.lookup_insert_ne hh] using hk h
    | true => simpa [updateParent, AList.lookup_insert_ne hh] using hk h

/-- The same edit of the links of several entries. -/
theorem links_foldl {upd : CTxMemPool → Uint256 → CTxMemPool} {f : TxLinks → TxLinks}
    (hupd : ∀ s x h, (upd s x).links h = if h = x then f (s.links x) else s.links h) :
    ∀ {l : List Uint256}, l.Nodup → ∀ (s : CTxMemPool) (h : Uint256),
      (l.foldl upd s).links h = if h ∈ l then f (s.links h) else s.links h := by
  intro l
  induction l with
  | nil => simp
  | cons x l ih =>
    intro hnd s h
    obtain ⟨hx, hnd⟩ := List.nodup_cons.mp hnd
    rw [List.foldl_cons, ih hnd, hupd]
    by_cases hh : h = x
    · subst hh
      rw [if_neg hx, if_pos rfl, if_pos (by simp)]
    · simp [hh]

variable (mu) in
/-- Add or remove a child of several entries. -/
theorem links_foldl_updateChild {l : List Uint256} (hl : l.Nodup) (x : Uint256) (add : Bool)
    (s : CTxMemPool) (h : Uint256) :
    (l.foldl (fun s p => s.updateChild mu p x add) s).links h = if h ∈ l then
      { s.links h with children :=
        (if add then (s.links h).children.insert x else (s.links h).children.erase x) }
      else s.links h :=
  links_foldl (f := fun k => { k with children :=
    (if add then k.children.insert x else k.children.erase x) })
    (fun s p h => links_updateChild s p x h add) hl s h

variable (mu) in
/-- Remove a parent of several entries. -/
theorem links_foldl_updateParent {l : List Uint256} (hl : l.Nodup) (x : Uint256)
    (s : CTxMemPool) (h : Uint256) :
    (l.foldl (fun s c => s.updateParent mu c x false) s).links h = if h ∈ l then
      { s.links h with parents := (s.links h).parents.erase x } else s.links h :=
  links_foldl (f := fun k => { k with parents := k.parents.erase x })
    (fun s c h => links_updateParent s c x h false) hl s h

theorem linkKeys_foldl {upd : CTxMemPool → Uint256 → CTxMemPool}
    (hframe : ∀ s x, Frame s (upd s x))
    (hupd : ∀ s x, LinkKeys s → s.hasTx x = true → LinkKeys (upd s x)) :
    ∀ {l : List Uint256} {s : CTxMemPool}, LinkKeys s → (∀ x ∈ l, s.hasTx x = true) →
      LinkKeys (l.foldl upd s) := by
  intro l
  induction l with
  | nil =>
    intro s hk _
    exact hk
  | cons x l ih =>
    intro s hk hl
    refine ih (hupd s x hk (hl x (by simp))) fun y hy => ?_
    rw [(hframe s x).hasTx]
    exact hl y (by simp [hy])

/-! ## Walking along the links -/

theorem next_parents {x y : Uint256} :
    Worklist.Next s.getMemPoolParents x y ↔ y ∈ (s.links x).parents := by
  unfold Worklist.Next getMemPoolParents links
  cases s.mapLinks.lookup x with
  | none => simp
  | some l => simp

theorem next_children {x y : Uint256} :
    Worklist.Next s.getMemPoolChildren x y ↔ y ∈ (s.links x).children := by
  unfold Worklist.Next getMemPoolChildren links
  cases s.mapLinks.lookup x with
  | none => simp
  | some l => simp

theorem getMemPoolParents_of_hasTx (hk : LinkKeys s) {x : Uint256} (hx : s.hasTx x = true) :
    s.getMemPoolParents x = some (s.links x).parents := by
  obtain ⟨l, hl⟩ := Option.isSome_iff_exists.mp ((hk x).trans hx)
  simp [getMemPoolParents, links, hl]

theorem getMemPoolChildren_of_hasTx (hk : LinkKeys s) {x : Uint256} (hx : s.hasTx x = true) :
    s.getMemPoolChildren x = some (s.links x).children := by
  obtain ⟨l, hl⟩ := Option.isSome_iff_exists.mp ((hk x).trans hx)
  simp [getMemPoolChildren, links, hl]

/-- No 64-bit number exceeds the largest one. -/
theorem exceeds_noLimit (n : ℤ) : exceeds n noLimit = false := by
  have hlimit : (noLimit : ℤ) = 2 ^ 64 - 1 := rfl
  have hlt := Int.emod_lt_of_pos n (b := 2 ^ 64) (by decide)
  rw [exceeds, decide_eq_false_iff_not, hlimit]
  omega

theorem stageParents_noLimits (anc : SetEntries) : ∀ (ps stage : List Uint256),
    stageParents noLimits anc ps stage = (none, Worklist.push anc stage ps) := by
  intro ps
  induction ps with
  | nil =>
    intro stage
    rfl
  | cons p ps ih =>
    intro stage
    rw [stageParents]
    simp only [noLimits, exceeds_noLimit, Bool.false_eq_true, if_false]
    exact ih _

/-- Without limits the loop is a plain walk along the links. -/
theorem walkAncestors_noLimits (hk : LinkKeys s) (entry : CTxMemPoolEntry) :
    ∀ (fuel : ℕ) (total : ℤ) (stage anc : SetEntries),
    s.walkAncestors entry noLimits fuel total stage anc
      = (Worklist.run s.getMemPoolParents fuel stage anc).map (none, ·) := by
  intro fuel
  induction fuel with
  | zero =>
    intro total stage anc
    cases stage with
    | nil => rfl
    | cons it stage => rfl
  | succ fuel ih =>
    intro total stage anc
    cases stage with
    | nil => rfl
    | cons it stage =>
      rw [walkAncestors, Worklist.run]
      simp only [noLimits, exceeds_noLimit, Bool.false_eq_true, if_false]
      cases hl : s.mapLinks.lookup it with
      | none =>
        -- no links, no entry
        have hno : s.mapTx.lookup it = none := by
          have := hk it
          rw [hl] at this
          simpa [hasTx] using this.symm
        simp [hno, getMemPoolParents, hl]
      | some l =>
        obtain ⟨e, he⟩ : ∃ e, s.mapTx.lookup it = some e := by
          have := hk it
          rw [hl] at this
          exact hasTx_iff_lookup.mp this.symm
        have hps : s.getMemPoolParents it = some l.parents := by
          rw [getMemPoolParents, hl]
          rfl
        have hstage := stageParents_noLimits (anc.insert it) l.parents stage
        rw [noLimits] at hstage ih
        simp only [he, hps, Option.bind_eq_bind, Option.bind_some, hstage]
        exact ih _ _ _

theorem keys_card_le (s : CTxMemPool) : s.mapTx.keys.toFinset.card ≤ s.mapTx.keys.length :=
  List.toFinset_card_le _

/-- The walk from some entries of the pool finds what can be reached from them. -/
theorem run_parents (hk : LinkKeys s) (hin : ∀ x y, y ∈ (s.links x).parents → s.hasTx y = true)
    {stage : SetEntries} (hnd : stage.Nodup) (hstage : ∀ x ∈ stage, s.hasTx x = true) :
    ∃ r, Worklist.run s.getMemPoolParents s.mapTx.keys.length stage [] = some r ∧ r.Nodup ∧
      ∀ x, x ∈ r ↔ ∃ y ∈ stage,
        Relation.ReflTransGen (fun x y => y ∈ (s.links x).parents) y x := by
  have hnext : Worklist.Next s.getMemPoolParents = fun x y => y ∈ (s.links x).parents := by
    funext x y
    exact propext next_parents
  obtain ⟨r, hr, hrn, hmem⟩ := Worklist.run_spec s.getMemPoolParents
    s.mapTx.keys.toFinset
    (fun x hx => ⟨_, getMemPoolParents_of_hasTx hk (hasTx_iff_mem_keys.mpr hx),
      fun y hy => hasTx_iff_mem_keys.mp (hin x y hy)⟩)
    s.mapTx.keys.length stage [] hnd List.nodup_nil
    (fun x hx => ⟨hasTx_iff_mem_keys.mp (hstage x hx), by simp⟩) (by simp) (by simp)
    (by simpa using keys_card_le s)
  refine ⟨r, hr, hrn, fun x => ?_⟩
  rw [hmem, Worklist.Reach, hnext]
  simp

/-- **The ancestors of an entry of the pool.** -/
theorem ancestors_of_entry (hk : LinkKeys s)
    (hin : ∀ x y, y ∈ (s.links x).parents → s.hasTx y = true)
    (hnd : ∀ x, (s.links x).parents.Nodup) {e : CTxMemPoolEntry}
    (he : s.hasTx e.tx.hash = true) :
    ∃ A, s.calculateMemPoolAncestors e noLimits false = some (none, A) ∧ A.Nodup ∧
      ∀ a, a ∈ A ↔ Relation.TransGen (fun x y => y ∈ (s.links x).parents) e.tx.hash a := by
  obtain ⟨r, hr, hrn, hmem⟩ := run_parents hk hin (hnd e.tx.hash) (hin e.tx.hash)
  refine ⟨r, ?_, hrn, fun a => ?_⟩
  · simp only [calculateMemPoolAncestors, Bool.false_eq_true, if_false,
      getMemPoolParents_of_hasTx hk he, Option.bind_eq_bind, Option.bind_some,
      walkAncestors_noLimits hk, hr, Option.map_some]
  · rw [hmem, Relation.TransGen.head'_iff]

/-- The parents of a new entry. -/
theorem searchParents_noLimits (s : CTxMemPool) : ∀ (os : List COutPoint) (l : SetEntries),
    l.Nodup → ∃ r, s.searchParents noLimits os l = (none, r) ∧ r.Nodup ∧
      ∀ x, x ∈ r ↔ x ∈ l ∨ (s.hasTx x = true ∧ ∃ o ∈ os, o.hash = x) := by
  intro os
  induction os with
  | nil =>
    intro l hl
    exact ⟨l, rfl, hl, by simp⟩
  | cons o os ih =>
    intro l hl
    rw [searchParents]
    by_cases ho : s.hasTx o.hash = true
    · simp only [ho, if_true, noLimits, exceeds_noLimit, Bool.false_eq_true, if_false]
      obtain ⟨r, hr, hrn, hmem⟩ := ih (l.insert o.hash) hl.insert
      refine ⟨r, hr, hrn, fun x => ?_⟩
      rw [hmem, List.mem_insert_iff]
      constructor
      · rintro ((rfl | h) | ⟨h, o', ho', rfl⟩)
        · exact .inr ⟨ho, o, by simp, rfl⟩
        · exact .inl h
        · exact .inr ⟨h, o', by simp [ho'], rfl⟩
      · rintro (h | ⟨h, o', ho', rfl⟩)
        · exact .inl (.inr h)
        · rcases List.mem_cons.mp ho' with rfl | ho'
          · exact .inl (.inl rfl)
          · exact .inr ⟨h, o', ho', rfl⟩
    · rw [if_neg ho]
      obtain ⟨r, hr, hrn, hmem⟩ := ih l hl
      refine ⟨r, hr, hrn, fun x => ?_⟩
      rw [hmem]
      constructor
      · rintro (h | ⟨h, o', ho', rfl⟩)
        · exact .inl h
        · exact .inr ⟨h, o', by simp [ho'], rfl⟩
      · rintro (h | ⟨h, o', ho', rfl⟩)
        · exact .inl h
        · rcases List.mem_cons.mp ho' with rfl | ho'
          · exact absurd h ho
          · exact .inr ⟨h, o', ho', rfl⟩

/-- One entry and its descendants. -/
theorem calculateDescendants_spec (hk : LinkKeys s)
    (hin : ∀ x y, y ∈ (s.links x).children → s.hasTx y = true) {done : SetEntries}
    (hnd : done.Nodup) (hsub : ∀ x ∈ done, s.hasTx x = true)
    (hclosed : ∀ x ∈ done, ∀ y ∈ (s.links x).children, y ∈ done) {it : Uint256}
    (hit : s.hasTx it = true) :
    ∃ r, s.calculateDescendants done it = some r ∧ r.Nodup ∧
      ∀ x, x ∈ r ↔ x ∈ done ∨
        Relation.ReflTransGen (fun x y => y ∈ (s.links x).children) it x := by
  have hnext : Worklist.Next s.getMemPoolChildren = fun x y => y ∈ (s.links x).children := by
    funext x y
    exact propext next_children
  unfold calculateDescendants
  by_cases hdone : it ∈ done
  · rw [if_pos hdone]
    refine ⟨done, by cases s.mapTx.keys.length <;> rfl, hnd, fun x => ?_⟩
    refine ⟨.inl, ?_⟩
    rintro (h | h)
    · exact h
    · rw [← hnext] at h
      exact Worklist.mem_of_reach (fun x hx y hy => hclosed x hx y (next_children.mp hy)) hdone h
  · rw [if_neg hdone]
    obtain ⟨r, hr, hrn, hmem⟩ := Worklist.run_spec s.getMemPoolChildren
      s.mapTx.keys.toFinset
      (fun x hx => ⟨_, getMemPoolChildren_of_hasTx hk (hasTx_iff_mem_keys.mpr hx),
        fun y hy => hasTx_iff_mem_keys.mp (hin x y hy)⟩)
      s.mapTx.keys.length [it] done (List.nodup_singleton it) hnd
      (by
        intro x hx
        obtain rfl := List.mem_singleton.mp hx
        exact ⟨hasTx_iff_mem_keys.mp hit, hdone⟩)
      (fun x hx => hasTx_iff_mem_keys.mp (hsub x hx))
      (fun x hx y hy => .inl (hclosed x hx y (next_children.mp hy)))
      (Nat.le_add_right_of_le (keys_card_le s))
    refine ⟨r, hr, hrn, fun x => ?_⟩
    rw [hmem, Worklist.Reach, hnext]
    simp

/-- **The descendants of entries of the pool**, with the entries themselves. -/
theorem descendants_of_entries (hk : LinkKeys s)
    (hin : ∀ x y, y ∈ (s.links x).children → s.hasTx y = true) :
    ∀ {l done : SetEntries}, (∀ x ∈ l, s.hasTx x = true) → done.Nodup →
    (∀ x ∈ done, s.hasTx x = true) →
    (∀ x ∈ done, ∀ y ∈ (s.links x).children, y ∈ done) →
    ∃ r, l.foldlM s.calculateDescendants done = some r ∧ r.Nodup ∧
      ∀ x, x ∈ r ↔ x ∈ done ∨ ∃ y ∈ l,
        Relation.ReflTransGen (fun x y => y ∈ (s.links x).children) y x := by
  intro l
  induction l with
  | nil =>
    intro done _ hnd _ _
    exact ⟨done, rfl, hnd, by simp⟩
  | cons it l ih =>
    intro done hl hnd hsub hclosed
    have hit := hl it (by simp)
    obtain ⟨r, hr, hrn, hmem⟩ := calculateDescendants_spec hk hin hnd hsub hclosed hit
    have hsub' : ∀ x ∈ r, s.hasTx x = true := by
      intro x hx
      rcases (hmem x).mp hx with hx | hx
      · exact hsub x hx
      · rcases Relation.ReflTransGen.cases_tail hx with rfl | ⟨y, -, hy⟩
        · exact hit
        · exact hin y x hy
    have hclosed' : ∀ x ∈ r, ∀ y ∈ (s.links x).children, y ∈ r := by
      intro x hx y hy
      rcases (hmem x).mp hx with hx | hx
      · exact (hmem y).mpr (.inl (hclosed x hx y hy))
      · exact (hmem y).mpr (.inr (hx.tail hy))
    obtain ⟨r', hr', hrn', hmem'⟩ := ih (fun x hx => hl x (by simp [hx])) hrn hsub' hclosed'
    refine ⟨r', ?_, hrn', fun x => ?_⟩
    · rw [List.foldlM_cons, hr]
      exact hr'
    · rw [hmem', hmem]
      constructor
      · rintro ((h | h) | ⟨y, hy, h⟩)
        · exact .inl h
        · exact .inr ⟨it, by simp, h⟩
        · exact .inr ⟨y, by simp [hy], h⟩
      · rintro (h | ⟨y, hy, h⟩)
        · exact .inl (.inl h)
        · rcases List.mem_cons.mp hy with rfl | hy
          · exact .inl (.inr h)
          · exact .inr ⟨y, hy, h⟩

end CTxMemPool
