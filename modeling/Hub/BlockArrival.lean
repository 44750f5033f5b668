/-
# Arrival of headers

`ValidationEnginePrivate::blockHeaderValidated`, `createBlockIndexFor`,
`startOrphanWithParent` and `handleFailedBlock`
(`libs/server/validation/BlockValidation.cpp`), and `Engine::invalidateBlock`
(`libs/server/validation/Engine.cpp`), as far as they work on the block index: they make
`CBlockIndex` objects, put them into `Blocks::Index`, park those whose parent is unknown and
hand the others to `Blocks::DB::appendHeader`.

All this runs on one strand, so a call is one step.  What the engine does with the block
itself (`blocksBeingValidated`, the active chain) enters through `busy`, which says that the
block is being validated already or is part of the active chain; then the call returns early.

`startOrphanWithParent` is recursive, and its loop changes the arena under way.  `Adopts` is
what it comes to: parked objects are attached one after the other, each on top of the object
for its parent (`startOrphanWithParent_spec`).
-/
import Hub.BlockArena
import Hub.BlockProof
import Hub.HeaderRuns
import Mathlib.Data.List.Perm.Basic

namespace Validation

open Blocks (DB appendHeader)

/-- What the engine reads off the header of a block; blocks are named by their hash, and
`none` is the null hash. -/
structure Headers (H : Type) where
  hashGenesisBlock : H
  previousBlockId : H → Option H
  bits : H → UInt32

/-- The engine, with `Blocks::Index` as `index`. -/
structure Engine (H : Type) where
  arena : Arena H
  index : H → Option ℕ
  db : DB ℕ
  orphanBlocks : List ℕ

variable {H : Type} [DecidableEq H] (P : Headers H)

/-! ## The code -/

/-- `index->nChainWork = index->pprev->nChainWork + GetBlockProof(*index)`. -/
def chainWorkOver (A : Arena H) (p q : ℕ) : ℕ :=
  (A.nChainWork q + ((A.hash p).map fun h => getBlockProof (P.bits h)).getD 0) % 2 ^ 256

/-- The object for the parent: from `Blocks::Index`, or else a header tip.  The look-up in
`blocksBeingValidated` that comes first finds the object of the index: blocks are put there behind
`Blocks::Index::insert`, and a second object for a hash is not taken. -/
def findPrev (s : Engine H) (h : H) : Option ℕ :=
  (P.previousBlockId h).bind fun prev =>
    (s.index prev).or (s.db.headerChainTips.find? fun tip => s.arena.hash tip = some prev)

/-- `createBlockIndexFor`: the new object. -/
def createBlockIndexFor (s : Engine H) (h : H) : Engine H × ℕ :=
  let p := s.arena.blocks.length
  let A := s.arena.alloc h
  match findPrev P s h with
  | some q =>
      if q ∈ A.attached then
        ({ s with
            arena := A.attach p q (chainWorkOver P A p q)
            -- the parent failed
            db := if s.db.failed q then s.db.mark [p] else s.db }, p)
      else ({ s with arena := A }, p)
  | none =>
      if h = P.hashGenesisBlock then
        ({ s with arena := A.root p (by simp [p, A, Arena.alloc]) }, p)
      else ({ s with arena := A }, p)

/-- `orphan->m_block.previousBlockId() == hash`. -/
def IsChild (A : Arena H) (o p : ℕ) : Prop := (A.hash o).bind P.previousBlockId = A.hash p

instance (A : Arena H) (o p : ℕ) : Decidable (IsChild P A o p) :=
  inferInstanceAs (Decidable (_ = _))

/-- `startOrphanWithParent` on the objects and `orphanBlocks`, with `adoptedItems`; the first
argument bounds the depth of the recursion. -/
def startOrphanWithParent : ℕ → ℕ → Arena H × List ℕ → (Arena H × List ℕ) × List ℕ
  | 0, _, s => (s, [])
  | fuel + 1, p, (A, orphanBlocks) =>
      let adoptees := orphanBlocks.filter fun o => IsChild P A o p
      adoptees.foldl
        (fun r o =>
          let B := r.1.1.attach o p (chainWorkOver P r.1.1 o p)
          let r' := startOrphanWithParent fuel o (B, r.1.2)
          (r'.1, r.2 ++ r'.2))
        ((A, orphanBlocks.filter fun o => ¬ IsChild P A o p), adoptees)

/-- `Blocks::Index::insert`, which keeps an entry that is there. -/
def insertIndex (s : Engine H) (p : ℕ) : Engine H :=
  match s.arena.hash p with
  | some h => if (s.index h).isNone then { s with index := Function.update s.index h (some p) } else s
  | none => s

/-- `appendHeader`; `none` is a failed assertion. -/
def announce (s : Engine H) (p : ℕ) : Option (Engine H) :=
  (appendHeader s.arena.toBlockIndex s.db p).map fun r => { s with db := r.2 }

/-- The objects from a tip down to `p`, without `p`; the first argument bounds the rounds. -/
def above (A : Arena H) (p : ℕ) : ℕ → ℕ → List ℕ
  | 0, _ => []
  | fuel + 1, tip => if tip = p then [] else tip :: ((A.pprev tip).map (above A p fuel)).getD []

/-- What `handleFailedBlock` sets a flag on. -/
def failedBy (s : Engine H) (p : ℕ) : List ℕ :=
  p :: s.db.headerChainTips.flatMap fun tip =>
    if s.arena.getAncestor tip (s.arena.nHeight p) = some p then
      above s.arena p (s.arena.nHeight tip + 1) tip
    else []

/-- `handleFailedBlock`. -/
def handleFailedBlock (s : Engine H) (p : ℕ) : Option (Engine H) :=
  announce (insertIndex { s with db := s.db.mark (failedBy s p) } p) p

/-- `blockHeaderValidated` after `createBlockIndexFor`. -/
def acceptHeader (s : Engine H) (p : ℕ) (hasFailed : Bool) : Option (Engine H) :=
  if hasFailed || s.db.failed p then handleFailedBlock s p
  else if p ∉ s.arena.attached then
    -- is an orphan for now
    some { s with orphanBlocks := s.orphanBlocks ++ [p] }
  else
    let r := startOrphanWithParent P (s.orphanBlocks.length + 1) p (s.arena, s.orphanBlocks)
    (p :: r.2).foldlM (fun s item => announce (insertIndex s item) item)
      { s with arena := r.1.1, orphanBlocks := r.1.2 }

/-- `blockHeaderValidated`. -/
def blockHeaderValidated (s : Engine H) (h : H) (hasFailed busy : Bool) : Option (Engine H) :=
  match s.index h with
  | some p => if s.db.failed p || busy then some s else acceptHeader P s p hasFailed
  | none =>
      let r := createBlockIndexFor P s h
      acceptHeader P r.1 r.2 hasFailed

/-- `Engine::invalidateBlock` on an object. -/
def invalidateBlock (s : Engine H) (p : ℕ) : Option (Engine H) :=
  announce { s with db := s.db.mark [p] } p

/-! ## Adoption -/

/-- The loose objects `l` are attached one after the other, each on top of an object of `R` or
one that was attached before. -/
inductive Adopts (R : List ℕ) (A : Arena H) : List ℕ → Arena H → Prop
  | nil : Adopts R A [] A
  | snoc {l : List ℕ} {B : Arena H} {o q : ℕ} (h : Adopts R A l B) (made : o < B.blocks.length)
      (loose : o ∉ B.attached) (under : q ∈ R ++ l) (child : IsChild P B o q) :
      Adopts R A (l ++ [o]) (B.attach o q (chainWorkOver P B o q))

variable {P} {R R' l l' : List ℕ} {A B C : Arena H} {a b o p q x : ℕ}

section Relation

omit [DecidableEq H]

theorem isChild_congr (h : B.hash = A.hash) : IsChild P B o q ↔ IsChild P A o q := by
  unfold IsChild
  rw [h]

theorem chainWorkOver_congr (hhash : B.hash x = A.hash x) (hwork : B.nChainWork q = A.nChainWork q) :
    chainWorkOver P B x q = chainWorkOver P A x q := by
  unfold chainWorkOver
  rw [hhash, hwork]

namespace Adopts

theorem trans (h : Adopts P R A l B) (h' : Adopts P R' B l' C) (hR : ∀ r ∈ R', r ∈ R ++ l) :
    Adopts P R A (l ++ l') C := by
  induction h' with
  | nil =>
    rw [List.append_nil]
    exact h
  | snoc h₂ made loose under child ih =>
    rw [← List.append_assoc]
    refine ih.snoc made loose ?_ child
    rw [← List.append_assoc]
    rcases List.mem_append.mp under with hr | hl
    · exact List.mem_append_left _ (hR _ hr)
    · exact List.mem_append_right _ hl

theorem blocks_eq (h : Adopts P R A l B) : B.blocks = A.blocks := by
  induction h with
  | nil => rfl
  | snoc h₂ made loose under child ih => rw [Arena.blocks_attach, ih]

theorem hash_eq (h : Adopts P R A l B) : B.hash = A.hash := by
  funext x
  rw [Arena.hash, Arena.hash, h.blocks_eq]

variable (hR : ∀ r ∈ R, r ∈ A.attached)

include hR

theorem attached_iff (h : Adopts P R A l B) : x ∈ B.attached ↔ x ∈ A.attached ∨ x ∈ l := by
  induction h generalizing x with
  | nil => simp
  | snoc h₂ made loose under child ih =>
    have hq := ih.mpr ((List.mem_append.mp under).imp_left (hR _))
    rw [Arena.attached_attach made loose hq, List.mem_cons, ih]
    simp only [List.mem_append, List.mem_singleton]
    tauto

theorem grown (h : Adopts P R A l B) : Arena.Grown A B := by
  induction h with
  | nil => exact Arena.Grown.refl A
  | snoc h₂ made loose under child ih =>
    have hq := (h₂.attached_iff hR).mpr ((List.mem_append.mp under).imp_left (hR _))
    exact ih.trans (Arena.grown_attach made loose hq)

theorem not_mem_attached (h : Adopts P R A l B) (hx : x ∈ l) : x ∉ A.attached := by
  induction h with
  | nil => simp at hx
  | snoc h₂ made loose under child ih =>
    rcases List.mem_append.mp hx with hx | hx
    · exact ih hx
    · obtain rfl := List.mem_singleton.mp hx
      exact fun hA => loose ((h₂.attached_iff hR).mpr (.inl hA))

/-- Below an adopted object there is, of the objects that were there, what is below `R`. -/
theorem exists_le (h : Adopts P R A l B) (hx : x ∈ l) (hb : b ∈ A.attached) (hle : B.Le b x) :
    ∃ r ∈ R, A.Le b r := by
  induction h generalizing x with
  | nil => simp at hx
  | @snoc l B o q h₂ made loose under child ih =>
    have hq := (h₂.attached_iff hR).mpr ((List.mem_append.mp under).imp_left (hR _))
    rcases List.mem_append.mp hx with hx | hx
    · have hxB := (h₂.attached_iff hR).mpr (.inr hx)
      exact ih hx (((Arena.grown_attach made loose hq).le_iff hxB).mp hle)
    · obtain rfl := List.mem_singleton.mp hx
      rcases (Arena.le_attach_iff made loose hq).mp hle with rfl | hle
      · exact absurd ((h₂.attached_iff hR).mpr (.inl hb)) loose
      · rcases List.mem_append.mp under with hr | hl
        · exact ⟨q, hr, ((h₂.grown hR).le_iff (hR q hr)).mp hle⟩
        · exact ih hl hle

/-- An adopted object has the object for its parent below it. -/
theorem exists_pprev (h : Adopts P R A l B) (hx : x ∈ l) :
    ∃ q ∈ R ++ l, B.pprev x = some q ∧ IsChild P B x q ∧
      B.nChainWork x = chainWorkOver P B x q := by
  induction h generalizing x with
  | nil => simp at hx
  | @snoc l B o q h₂ made loose under child ih =>
    have hq := (h₂.attached_iff hR).mpr ((List.mem_append.mp under).imp_left (hR _))
    have hgrown : Arena.Grown B (B.attach o q (chainWorkOver P B o q)) :=
      Arena.grown_attach made loose hq
    rcases List.mem_append.mp hx with hx | hx
    · obtain ⟨r, hr, hprev, hchild, hwork⟩ := ih hx
      have hxB := (h₂.attached_iff hR).mpr (.inr hx)
      have hrB := (B.closed x r hprev).2
      refine ⟨r, ?_, (hgrown.pprev x hxB).trans hprev, ?_, ?_⟩
      · rw [← List.append_assoc]
        exact List.mem_append_left _ hr
      · rw [isChild_congr Arena.hash_attach]
        exact hchild
      · rw [hgrown.nChainWork x hxB, hwork,
          chainWorkOver_congr (congrFun Arena.hash_attach x) (hgrown.nChainWork r hrB)]
    · obtain rfl := List.mem_singleton.mp hx
      refine ⟨q, ?_, ?_, ?_, ?_⟩
      · rw [← List.append_assoc]
        exact List.mem_append_left _ under
      · rw [Arena.pprev_attach made loose hq, Function.update_self]
      · rw [isChild_congr Arena.hash_attach]
        exact child
      · rw [chainWorkOver_congr (congrFun Arena.hash_attach x) (hgrown.nChainWork q hq),
          Arena.nChainWork_attach made loose hq, Function.update_self]

end Adopts

/-- What `startOrphanWithParent` made of `A` and `orphanBlocks`: it attached `l` on top of `R`,
and nothing that is left is a child of what it attached. -/
structure Adopted (P : Headers H) (R : List ℕ) (A : Arena H) (orphanBlocks : List ℕ)
    (B : Arena H) (rest l : List ℕ) : Prop where
  adopts : Adopts P R A l B
  perm : orphanBlocks.Perm (l ++ rest)
  sublist : rest.Sublist orphanBlocks
  none_left : ∀ o ∈ rest, ∀ q ∈ R ++ l, ¬ IsChild P A o q

end Relation

section Recursion

variable {fuel : ℕ} {orphanBlocks : List ℕ}

/-- The loop of `startOrphanWithParent` over the adoptees, when the recursive calls do what
they should. -/
theorem foldl_adopt
    (ih : ∀ (o : ℕ) (B : Arena H) (rest : List ℕ), o ∈ B.attached → rest.Nodup →
      (∀ x ∈ rest, x < B.blocks.length ∧ x ∉ B.attached) → rest.length < fuel →
      ∃ C rest' l adopted, startOrphanWithParent P fuel o (B, rest) = ((C, rest'), adopted) ∧
        Adopted P [o] B rest C rest' l ∧ adopted.Perm l)
    (hp : p ∈ A.attached) (hnodup : orphanBlocks.Nodup)
    (hloose : ∀ x ∈ orphanBlocks, x < A.blocks.length ∧ x ∉ A.attached)
    (hfuel : orphanBlocks.length < fuel + 1) :
    ∀ (todo : List ℕ) (B : Arena H) (rest adopted l : List ℕ), Adopts P [p] A l B →
    orphanBlocks.Perm (l ++ (todo ++ rest)) → rest.Sublist orphanBlocks →
    adopted.Perm (l ++ todo) → (∀ o ∈ todo, IsChild P A o p) →
    (∀ o ∈ rest, ∀ q ∈ [p] ++ l, ¬ IsChild P A o q) →
    ∃ C rest' l' adopted', todo.foldl (fun r o =>
          let B := r.1.1.attach o p (chainWorkOver P r.1.1 o p)
          let r' := startOrphanWithParent P fuel o (B, r.1.2)
          (r'.1, r.2 ++ r'.2)) ((B, rest), adopted) = ((C, rest'), adopted') ∧
      Adopted P [p] A orphanBlocks C rest' l' ∧ adopted'.Perm l' := by
  have hR : ∀ r ∈ [p], r ∈ A.attached := by simpa using hp
  intro todo
  induction todo with
  | nil =>
    intro B rest adopted l hB hperm hsub hadopted _ hnone
    rw [List.append_nil] at hadopted
    exact ⟨B, rest, l, adopted, rfl, ⟨hB, hperm, hsub, hnone⟩, hadopted⟩
  | cons o todo ihtodo =>
    intro B rest adopted l hB hperm hsub hadopted hchild hnone
    have hall : (l ++ (o :: todo ++ rest)).Nodup := hperm.nodup_iff.mp hnodup
    obtain ⟨-, hrest, hdisj⟩ := List.nodup_append.mp hall
    have ho : o ∈ orphanBlocks := hperm.mem_iff.mpr (by simp)
    have hmade : o < B.blocks.length := by
      rw [hB.blocks_eq]
      exact (hloose o ho).1
    have holoose : o ∉ B.attached := by
      rw [hB.attached_iff hR, not_or]
      exact ⟨(hloose o ho).2, fun hl => hdisj o hl o (by simp) rfl⟩
    have hpB : p ∈ B.attached := (hB.attached_iff hR).mpr (.inl hp)
    have hBo : Adopts P [p] A (l ++ [o]) (B.attach o p (chainWorkOver P B o p)) :=
      hB.snoc hmade holoose (by simp) ((isChild_congr hB.hash_eq).mpr (hchild o (by simp)))
    -- what is left is loose
    have hrest' : ∀ x ∈ rest, x < (B.attach o p (chainWorkOver P B o p)).blocks.length ∧
        x ∉ (B.attach o p (chainWorkOver P B o p)).attached := by
      intro x hx
      have hxo := hloose x (hsub.subset hx)
      rw [hBo.blocks_eq, hBo.attached_iff hR, not_or]
      refine ⟨hxo.1, hxo.2, fun hl => ?_⟩
      rcases List.mem_append.mp hl with hl | hl
      · exact hdisj x hl x (by simp [hx]) rfl
      · obtain rfl := List.mem_singleton.mp hl
        exact (List.nodup_cons.mp hrest).1 (List.mem_append_right _ hx)
    have hlen := hperm.length_eq
    simp only [List.length_append, List.length_cons] at hlen
    obtain ⟨C, rest₁, l₁, adopted₁, hrun, hC, hadopted₁⟩ := ih o _ rest
      ((hBo.attached_iff hR).mpr (.inr (by simp))) (hsub.nodup hnodup) hrest' (by omega)
    rw [List.foldl_cons]
    simp only [hrun]
    refine ihtodo C rest₁ (adopted ++ adopted₁) (l ++ [o] ++ l₁)
      (hBo.trans hC.adopts (by simp)) ?_ (hC.sublist.trans hsub) ?_
      (fun x hx => hchild x (List.mem_cons_of_mem o hx)) ?_
    · refine List.perm_iff_count.mpr fun a => ?_
      have h₁ := hperm.count_eq a
      have h₂ := hC.perm.count_eq a
      simp only [List.count_append, List.count_cons, List.count_nil] at h₁ h₂ ⊢
      omega
    · refine List.perm_iff_count.mpr fun a => ?_
      have h₁ := hadopted.count_eq a
      have h₂ := hadopted₁.count_eq a
      simp only [List.count_append, List.count_cons, List.count_nil] at h₁ h₂ ⊢
      omega
    · intro x hx q hq
      simp only [List.mem_append] at hq
      rcases hq with hq | (hq | hq) | hq
      · exact hnone x (hC.sublist.subset hx) q (List.mem_append_left _ hq)
      · exact hnone x (hC.sublist.subset hx) q (List.mem_append_right _ hq)
      · rw [← isChild_congr hBo.hash_eq]
        exact hC.none_left x hx q (List.mem_append_left _ hq)
      · rw [← isChild_congr hBo.hash_eq]
        exact hC.none_left x hx q (List.mem_append_right _ hq)

/-- **`startOrphanWithParent`** attaches all that can be attached. -/
theorem startOrphanWithParent_spec : ∀ (fuel p : ℕ) (A : Arena H) (orphanBlocks : List ℕ),
    p ∈ A.attached → orphanBlocks.Nodup →
    (∀ o ∈ orphanBlocks, o < A.blocks.length ∧ o ∉ A.attached) → orphanBlocks.length < fuel →
    ∃ B rest l adopted, startOrphanWithParent P fuel p (A, orphanBlocks) = ((B, rest), adopted) ∧
      Adopted P [p] A orphanBlocks B rest l ∧ adopted.Perm l := by
  intro fuel
  induction fuel with
  | zero =>
    intro p A orphanBlocks _ _ _ hfuel
    omega
  | succ fuel ih =>
    intro p A orphanBlocks hp hnodup hloose hfuel
    rw [startOrphanWithParent]
    refine foldl_adopt ih hp hnodup hloose hfuel _ A _ _ [] .nil ?_ List.filter_sublist
      (List.Perm.refl _) (fun o ho => by simpa using (List.mem_filter.mp ho).2) ?_
    · have hsplit := List.filter_append_perm (fun o => decide (IsChild P A o p)) orphanBlocks
      simpa using hsplit.symm
    · intro o ho q hq
      obtain rfl : q = p := by simpa using hq
      simpa using (List.mem_filter.mp ho).2

end Recursion

/-! ## Well-formed engines -/

/-- Chain, tips and `Blocks::Index` refer to attached objects, failure flags are set on
attached objects, and the parked objects are loose. -/
structure Wf (s : Engine H) : Prop where
  chain : (s.db.headersChain.vChain = [] ∧ s.db.headerChainTips = []) ∨
    ∃ t ∈ s.arena.attached, s.db.headersChain.IsPath s.arena.toBlockIndex t
  tips : ∀ i ∈ s.db.headerChainTips, i ∈ s.arena.attached
  index : ∀ h p, s.index h = some p → p ∈ s.arena.attached ∧ s.arena.hash p = some h
  failed : ∀ x, s.db.failed x = true → x ∈ s.arena.attached
  nodup : s.orphanBlocks.Nodup
  loose : ∀ o ∈ s.orphanBlocks, o < s.arena.blocks.length ∧ o ∉ s.arena.attached

/-- An engine that has seen no block. -/
def initial : Engine H := ⟨Arena.empty, fun _ => none, DB.empty fun _ => false, []⟩

variable {s s' : Engine H} {g : H}

namespace Wf

omit [DecidableEq H] in
theorem initial : Wf (initial : Engine H) where
  chain := .inl ⟨rfl, rfl⟩
  tips := by simp [Validation.initial, DB.empty]
  index := by simp [Validation.initial]
  failed := by simp [Validation.initial, DB.empty]
  nodup := List.nodup_nil
  loose := by simp [Validation.initial]

omit [DecidableEq H] in
theorem chain_valid (h : Wf s) : s.db.headersChain.Valid s.arena.toBlockIndex := by
  rcases h.chain with ⟨hnil, -⟩ | ⟨t, -, ht⟩
  · exact .inl hnil
  · exact ht.valid

omit [DecidableEq H] in
theorem tips_nil (h : Wf s) (hnil : s.db.headersChain.vChain = []) :
    s.db.headerChainTips = [] := by
  rcases h.chain with ⟨-, htips⟩ | ⟨t, -, ht⟩
  · exact htips
  · have hne := ht.height_ne
    simp [CChain.height, hnil] at hne

omit [DecidableEq H] in
/-- The tip of the chain is attached. -/
theorem mem_of_isPath (h : Wf s) {t : ℕ} (ht : s.db.headersChain.IsPath s.arena.toBlockIndex t) :
    t ∈ s.arena.attached := by
  rcases h.chain with ⟨hnil, -⟩ | ⟨u, hu, hpath⟩
  · have hne := ht.height_ne
    simp [CChain.height, hnil] at hne
  · obtain rfl : u = t := Option.some.inj (hpath.tip_eq.symm.trans ht.tip_eq)
    exact hu

omit [DecidableEq H] in
/-- With more objects the chain is the path that it was. -/
theorem isPath_of_grown (h : Wf s) {B : Arena H} (hB : Arena.Grown s.arena B) {t : ℕ}
    (ht : s.db.headersChain.IsPath B.toBlockIndex t) :
    t ∈ s.arena.attached ∧ s.db.headersChain.IsPath s.arena.toBlockIndex t := by
  rcases h.chain with ⟨hnil, -⟩ | ⟨u, hu, hpath⟩
  · have hne := ht.height_ne
    simp [CChain.height, hnil] at hne
  · obtain rfl : u = t := Option.some.inj ((hB.isPath hu hpath).tip_eq.symm.trans ht.tip_eq)
    exact ⟨hu, hpath⟩

omit [DecidableEq H] in
/-- More objects, with the database and the index as they were. -/
theorem grow (h : Wf s) {B : Arena H} {rest : List ℕ} (hB : Arena.Grown s.arena B)
    (hnodup : rest.Nodup) (hloose : ∀ o ∈ rest, o < B.blocks.length ∧ o ∉ B.attached) :
    Wf { s with arena := B, orphanBlocks := rest } where
  chain := h.chain.imp_right fun ⟨t, ht, hpath⟩ => ⟨t, hB.attached t ht, hB.isPath ht hpath⟩
  tips := fun i hi => hB.attached i (h.tips i hi)
  index := fun g p hp => ⟨hB.attached p (h.index g p hp).1, hB.hash p g (h.index g p hp).2⟩
  failed := fun x hx => hB.attached x (h.failed x hx)
  nodup := hnodup
  loose := hloose

theorem findPrev_attached (h : Wf s) {q : ℕ} (hq : findPrev P s g = some q) :
    q ∈ s.arena.attached := by
  obtain ⟨prev, -, hor⟩ := Option.bind_eq_some_iff.mp hq
  rcases Option.or_eq_some_iff.mp hor with hind | ⟨-, hfind⟩
  · exact (h.index prev q hind).1
  · exact h.tips q (List.mem_of_find?_eq_some hfind)

theorem inserted (h : Wf s) (hp : p ∈ s.arena.attached) : Wf (insertIndex s p) := by
  unfold insertIndex
  cases hhash : s.arena.hash p with
  | none => exact h
  | some g =>
    simp only
    split
    · refine ⟨h.chain, h.tips, fun g' q hq => ?_, h.failed, h.nodup, h.loose⟩
      by_cases hg : g' = g
      · subst hg
        simp only [Function.update_self] at hq
        obtain rfl := Option.some.inj hq
        exact ⟨hp, hhash⟩
      · simp only [Function.update_of_ne hg] at hq
        exact h.index g' q hq
    · exact h

omit [DecidableEq H] in
theorem mark (h : Wf s) {marked : List ℕ} (hm : ∀ x ∈ marked, x ∈ s.arena.attached) :
    Wf { s with db := s.db.mark marked } where
  chain := h.chain
  tips := h.tips
  index := h.index
  failed := fun x hx => by
    rcases Blocks.mark_failed_iff.mp hx with hx | hx
    · exact h.failed x hx
    · exact hm x hx
  nodup := h.nodup
  loose := h.loose

end Wf

@[simp] theorem arena_insertIndex : (insertIndex s p).arena = s.arena := by
  unfold insertIndex
  repeat' split
  all_goals rfl

@[simp] theorem db_insertIndex : (insertIndex s p).db = s.db := by
  unfold insertIndex
  repeat' split
  all_goals rfl

@[simp] theorem orphanBlocks_insertIndex : (insertIndex s p).orphanBlocks = s.orphanBlocks := by
  unfold insertIndex
  repeat' split
  all_goals rfl

/-! ## The steps -/

omit [DecidableEq H] in
/-- Ancestors of attached objects are attached. -/
theorem mem_attached_of_le (hle : A.Le a b) (hb : b ∈ A.attached) : a ∈ A.attached :=
  Forest.Le.induction (P := (· ∈ A.attached)) (fun c p hp _ => (A.closed c p hp).2) hle hb

omit [DecidableEq H] in
/-- **Announcing a valid object.** -/
theorem Wf.announce_of_valid (h : Wf s) (hp : p ∈ s.arena.attached) (hf : s.db.failed p = false) :
    ∃ db', announce s p = some { s with db := db' } ∧ Wf { s with db := db' } ∧
      db'.failed = s.db.failed ∧ Blocks.AnnounceOutcome s.arena.toBlockIndex s.db p db' := by
  obtain ⟨r, db', hrun, hfailed, hout⟩ :=
    Blocks.appendHeader_of_valid hf h.chain_valid h.tips_nil
  refine ⟨db', by rw [announce, hrun, Option.map_some], ?_, hfailed, hout⟩
  refine ⟨?_, fun i hi => ?_, h.index, fun x hx => h.failed x (hfailed ▸ hx), h.nodup, h.loose⟩
  · rcases hout.isPath with hsame | hpath
    · rcases h.chain with ⟨hnil, htips⟩ | ⟨t, ht, hpath⟩
      · -- the first header starts a chain
        cases hout with
        | known htips' _ hk =>
          rcases hk with hk | ⟨i, hi, -⟩
          · simp [CChain.contains, hnil] at hk
          · simp [htips] at hi
        | added _ _ hchain =>
          rcases hchain with ⟨hpath, -⟩ | ⟨-, t, ht, -⟩
          · exact .inr ⟨p, hp, hpath⟩
          · have hne := ht.height_ne
            simp [CChain.height, hnil] at hne
      · exact .inr ⟨t, ht, by rw [hsame]; exact hpath⟩
    · exact .inr ⟨p, hp, hpath⟩
  · rcases hout.mem_tips hi with rfl | hi
    · exact hp
    · exact h.tips i hi

omit [DecidableEq H] in
/-- **Announcing a failed object.** -/
theorem Wf.announce_of_failed (h : Wf s) (hf : s.db.failed p = true)
    (hrun : announce s p = some s') :
    ∃ q v t t' db', s' = { s with db := db' } ∧ Wf s' ∧ db'.failed = s.db.failed ∧
      s.arena.pprev p = some q ∧ s.arena.Le v q ∧ s.db.failed v = false ∧
      (∀ x, s.arena.Le x q → s.db.failed x = false → s.arena.Le x v) ∧
      s.db.headersChain.IsPath s.arena.toBlockIndex t ∧
      db'.headersChain.IsPath s.arena.toBlockIndex t' ∧
      Blocks.FailOutcome s.arena.toBlockIndex s.db p v t db' t' := by
  obtain ⟨r, hr, rfl⟩ := Option.map_eq_some_iff.mp hrun
  obtain ⟨hne, q, v, hq, hv⟩ := Blocks.appendHeader_failed_inv hf h.tips_nil hr
  obtain ⟨t, ht, hpath⟩ := h.chain.resolve_left fun hnil => hne hnil.1
  obtain ⟨r', db', t', hr', hfailed, hpath', hout⟩ :=
    Blocks.appendHeader_of_failed hf hq hv hpath
  obtain rfl := Option.some.inj (hr'.symm.trans hr)
  obtain ⟨hvq, hvf⟩ := Blocks.skipFailed_sound _ _ _ hv
  have hva := mem_attached_of_le (A := s.arena) hvq (s.arena.closed p q hq).2
  refine ⟨q, v, t, t', db', rfl, ?_, hfailed, hq, hvq, hvf, Blocks.skipFailed_max _ _ _ hv,
    hpath, hpath', hout⟩
  refine ⟨.inr ⟨t', ?_, hpath'⟩, fun i hi => ?_, h.index, fun x hx => h.failed x (hfailed ▸ hx),
    h.nodup, h.loose⟩
  · rcases hout.tip_le with rfl | hle | ⟨i, hi, hle⟩
    · exact ht
    · exact mem_attached_of_le (A := s.arena) hle hva
    · exact mem_attached_of_le (A := s.arena) hle (h.tips i (Blocks.mem_survivors.mp hi).1)
  · rcases hout.mem_tips hi with rfl | hi
    · exact hva
    · exact h.tips i hi

/-- The ways in which `createBlockIndexFor` can go. -/
inductive Created (P : Headers H) (s : Engine H) (g : H) : Engine H × ℕ → Prop
  | child {q : ℕ} (prev : findPrev P s g = some q) (attached : q ∈ s.arena.attached) :
      Created P s g
        ({ s with
            arena := (s.arena.alloc g).attach s.arena.blocks.length q
              (chainWorkOver P (s.arena.alloc g) s.arena.blocks.length q)
            db := if s.db.failed q then s.db.mark [s.arena.blocks.length] else s.db },
          s.arena.blocks.length)
  | genesis (prev : findPrev P s g = none) (eq : g = P.hashGenesisBlock)
      (made : s.arena.blocks.length < (s.arena.alloc g).blocks.length) :
      Created P s g
        ({ s with arena := (s.arena.alloc g).root s.arena.blocks.length made },
          s.arena.blocks.length)
  | loose (prev : findPrev P s g = none) (ne : g ≠ P.hashGenesisBlock) :
      Created P s g ({ s with arena := s.arena.alloc g }, s.arena.blocks.length)

/-- **`createBlockIndexFor`.** -/
theorem Wf.created (h : Wf s) (g : H) : Created P s g (createBlockIndexFor P s g) := by
  unfold createBlockIndexFor
  cases hprev : findPrev P s g with
  | some q =>
    have hq := h.findPrev_attached hprev
    have hq' : q ∈ (s.arena.alloc g).attached := hq
    simp only [hq', if_true]
    exact .child hprev hq
  | none =>
    simp only
    split
    · next hg => exact .genesis hprev hg _
    · next hg => exact .loose hprev hg

section Fresh

omit [DecidableEq H]

variable (A g)

theorem length_lt_alloc : A.blocks.length < (A.alloc g).blocks.length := by simp [Arena.alloc]

theorem length_not_mem_attached : A.blocks.length ∉ (A.alloc g).attached := fun hmem =>
  Nat.lt_irrefl _ (A.made _ hmem)

/-- Attaching the new object leaves all others as they are. -/
theorem grown_attach_alloc (hq : q ∈ A.attached) (work : ℕ) :
    Arena.Grown A ((A.alloc g).attach A.blocks.length q work) :=
  (Arena.grown_alloc A g).trans
    (Arena.grown_attach (length_lt_alloc A g) (length_not_mem_attached A g) hq)

theorem grown_root_alloc (hlt : A.blocks.length < (A.alloc g).blocks.length) :
    Arena.Grown A ((A.alloc g).root A.blocks.length hlt) :=
  (Arena.grown_alloc A g).trans (Arena.grown_root _ _ hlt)

end Fresh

namespace Created

variable {r : Engine H × ℕ}

theorem grown (h : Created P s g r) : Arena.Grown s.arena r.1.arena := by
  cases h with
  | child prev hq => exact grown_attach_alloc s.arena g hq _
  | genesis prev eq made => exact grown_root_alloc s.arena g made
  | loose prev ne => exact Arena.grown_alloc s.arena g

theorem snd_eq (h : Created P s g r) : r.2 = s.arena.blocks.length := by
  cases h with
  | child prev hq => rfl
  | genesis prev eq made => rfl
  | loose prev ne => rfl

theorem orphanBlocks_eq (h : Created P s g r) : r.1.orphanBlocks = s.orphanBlocks := by
  cases h with
  | child prev hq => rfl
  | genesis prev eq made => rfl
  | loose prev ne => rfl

theorem blocks_eq (h : Created P s g r) : r.1.arena.blocks = s.arena.blocks ++ [g] := by
  cases h with
  | child prev hq => rw [Arena.blocks_attach]; rfl
  | genesis prev eq made => rfl
  | loose prev ne => rfl

theorem hash_eq (h : Created P s g r) : r.1.arena.hash r.2 = some g := by
  rw [Arena.hash, h.blocks_eq, h.snd_eq]
  simp

/-- At most the new object becomes attached. -/
theorem mem_attached (h : Created P s g r) {x : ℕ} (hx : x ∈ r.1.arena.attached) :
    x ∈ s.arena.attached ∨ x = r.2 := by
  cases h with
  | child prev hq =>
    rw [Arena.attached_attach (length_lt_alloc s.arena g) (length_not_mem_attached s.arena g) hq]
      at hx
    exact (List.mem_cons.mp hx).symm
  | genesis prev eq made => exact (List.mem_cons.mp hx).symm
  | loose prev ne => exact .inl hx

/-- The new object has the object below it that `findPrev` finds. -/
theorem pprev_eq (h : Created P s g r) : r.1.arena.pprev r.2 = findPrev P s g := by
  have hnone : s.arena.pprev s.arena.blocks.length = none :=
    Option.eq_none_iff_forall_ne_some.mpr fun q hq =>
      length_not_mem_attached s.arena g (s.arena.closed _ q hq).1
  cases h with
  | child prev hq =>
    simp only [Arena.pprev_attach (length_lt_alloc s.arena g) (length_not_mem_attached s.arena g) hq,
      Function.update_self, prev]
  | genesis prev eq made => rw [prev]; exact hnone
  | loose prev ne => rw [prev]; exact hnone

/-- The ancestors of the new object. -/
theorem le_iff (h : Created P s g r) (hs : Wf s) {x : ℕ} :
    r.1.arena.Le x r.2 ↔ x = r.2 ∨ ∃ q, findPrev P s g = some q ∧ s.arena.Le x q := by
  cases hprev : findPrev P s g with
  | none =>
    have hroot : r.1.arena.pprev r.2 = none := h.pprev_eq.trans hprev
    simp only [reduceCtorEq, false_and, exists_false, or_false]
    constructor
    · exact Forest.eq_of_le_root (F := r.1.arena.toBlockIndex.forest) hroot
    · rintro rfl
      exact Forest.Le.refl _
  | some q =>
    have hparent : r.1.arena.pprev r.2 = some q := h.pprev_eq.trans hprev
    rw [Arena.Le, Forest.le_iff_of_parent (F := r.1.arena.toBlockIndex.forest) hparent]
    simp only [Option.some.injEq, exists_eq_left']
    exact or_congr_right (h.grown.le_iff (hs.findPrev_attached hprev))

/-- The new object has a failure flag if its parent has one. -/
theorem failed_of_prev (h : Created P s g r) {q : ℕ} (hprev : findPrev P s g = some q)
    (hf : s.db.failed q = true) : r.1.db.failed r.2 = true := by
  cases h with
  | child prev hq =>
    obtain rfl := Option.some.inj (hprev.symm.trans prev)
    simp [hf, DB.mark]
  | genesis prev eq made => simp [hprev] at prev
  | loose prev ne => simp [hprev] at prev

theorem wf (h : Created P s g r) (hs : Wf s) : Wf r.1 := by
  have hloose : ∀ o ∈ s.orphanBlocks, o < r.1.arena.blocks.length ∧ o ∉ r.1.arena.attached := by
    intro o ho
    obtain ⟨hlt, hmem⟩ := hs.loose o ho
    rw [h.blocks_eq, List.length_append]
    refine ⟨by omega, fun hx => ?_⟩
    rcases h.mem_attached hx with hx | hx
    · exact hmem hx
    · rw [h.snd_eq] at hx
      omega
  have hgrow := hs.grow h.grown hs.nodup hloose
  cases h with
  | child prev hq =>
    simp only
    split
    · refine hgrow.mark fun x hx => ?_
      rw [List.mem_singleton.mp hx,
        Arena.attached_attach (length_lt_alloc s.arena g) (length_not_mem_attached s.arena g) hq]
      exact List.mem_cons_self
    · exact hgrow
  | genesis prev eq made => exact hgrow
  | loose prev ne => exact hgrow

end Created

/-- A valid object with a known parent is announced together with what it lets out of
`orphanBlocks`. -/
theorem Wf.acceptHeader_eq (h : Wf s) (hp : p ∈ s.arena.attached) (hf : s.db.failed p = false) :
    ∃ B rest l adopted, Adopted P [p] s.arena s.orphanBlocks B rest l ∧ adopted.Perm l ∧
      Wf { s with arena := B, orphanBlocks := rest } ∧
      (∀ x ∈ p :: adopted, x ∈ B.attached ∧ s.db.failed x = false) ∧
      acceptHeader P s p false = (p :: adopted).foldlM
        (fun s item => announce (insertIndex s item) item)
        { s with arena := B, orphanBlocks := rest } := by
  have hR : ∀ r ∈ [p], r ∈ s.arena.attached := by simpa using hp
  obtain ⟨B, rest, l, adopted, hrun, hB, hperm⟩ := startOrphanWithParent_spec
    (P := P) (s.orphanBlocks.length + 1) p s.arena s.orphanBlocks hp h.nodup h.loose (by omega)
  have hnodup : (l ++ rest).Nodup := hB.perm.nodup_iff.mp h.nodup
  refine ⟨B, rest, l, adopted, hB, hperm, ?_, ?_, ?_⟩
  · refine h.grow (hB.adopts.grown hR) (hB.sublist.nodup h.nodup) fun o ho => ?_
    obtain ⟨hlt, hloose⟩ := h.loose o (hB.sublist.subset ho)
    rw [hB.adopts.blocks_eq, hB.adopts.attached_iff hR, not_or]
    exact ⟨hlt, hloose, fun hl => (List.nodup_append.mp hnodup).2.2 o hl o ho rfl⟩
  · intro x hx
    rcases List.mem_cons.mp hx with rfl | hx
    · exact ⟨(hB.adopts.attached_iff hR).mpr (.inl hp), hf⟩
    · have hl := hperm.mem_iff.mp hx
      refine ⟨(hB.adopts.attached_iff hR).mpr (.inr hl), ?_⟩
      by_contra hfailed
      exact hB.adopts.not_mem_attached hR hl (h.failed x (by simpa using hfailed))
  · unfold acceptHeader
    simp only [hf, Bool.or_self, Bool.false_eq_true, if_false, hp, not_true_eq_false, hrun]

/-- **The loop over the items.**  It fails no assertion; `Q` is about the items that are still
to come. -/
theorem Wf.foldlM_announce {Q : List ℕ → Engine H → Prop} : ∀ (items : List ℕ) (s : Engine H),
    Wf s → (∀ x ∈ items, x ∈ s.arena.attached ∧ s.db.failed x = false) → Q items s →
    (∀ u x rest db', x ∈ items → Wf u → u.arena = s.arena → u.orphanBlocks = s.orphanBlocks →
      Q (x :: rest) u → Blocks.AnnounceOutcome u.arena.toBlockIndex u.db x db' →
      db'.failed = u.db.failed → Q rest { insertIndex u x with db := db' }) →
    ∃ s', items.foldlM (fun s item => announce (insertIndex s item) item) s = some s' ∧ Wf s' ∧
      s'.arena = s.arena ∧ s'.orphanBlocks = s.orphanBlocks ∧ s'.db.failed = s.db.failed ∧
      Q [] s' := by
  intro items
  induction items with
  | nil =>
    intro s hs _ hQ _
    exact ⟨s, rfl, hs, rfl, rfl, rfl, hQ⟩
  | cons x items ih =>
    intro s hs hitems hQ hstep
    obtain ⟨hx, hxf⟩ := hitems x List.mem_cons_self
    obtain ⟨db', hrun, hwf, hfailed, hout⟩ := (hs.inserted hx).announce_of_valid
      (by rw [arena_insertIndex]; exact hx) (by rw [db_insertIndex]; exact hxf)
    rw [db_insertIndex] at hfailed
    rw [arena_insertIndex, db_insertIndex] at hout
    obtain ⟨s', hrest, hwf', harena, horphans, hfailed', hQ'⟩ :=
      ih { insertIndex s x with db := db' } hwf
        (fun y hy => by
          simp only [arena_insertIndex, hfailed]
          exact hitems y (List.mem_cons_of_mem x hy))
        (hstep s x items db' List.mem_cons_self hs rfl rfl hQ hout hfailed)
        (fun u y rest db'' hy hu hua huo => hstep u y rest db'' (List.mem_cons_of_mem x hy) hu
          (hua.trans arena_insertIndex) (huo.trans orphanBlocks_insertIndex))
    refine ⟨s', ?_, hwf', harena.trans arena_insertIndex,
      horphans.trans orphanBlocks_insertIndex, hfailed'.trans hfailed, hQ'⟩
    rw [List.foldlM_cons, hrun]
    exact hrest

end Validation
