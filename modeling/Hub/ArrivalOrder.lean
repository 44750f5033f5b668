/-
# The order in which blocks arrive

Blocks of a tree are handed to `blockHeaderValidated` in any order and any number of times.
Those whose parent is unknown are parked in `orphanBlocks`, and every arrival lets out what
it is an ancestor of.

`Tracked` is what holds after every delivery: what was delivered is in `Blocks::Index` or
parked, a parked block waits for a parent that is not in the index, and all attached objects
are in the tree of headers.  So in the end nothing is parked.  Two things can still be wrong:

* a block that is delivered again while it is parked gets a second object, and both end up in
  the tree of headers;
* `createBlockIndexFor` leaves `nChainWork` of the genesis block at zero, unlike
  `LoadBlockIndexDB`, and all work above is short of that of genesis.

`arrived_iff` says that nothing else is.
-/
import Hub.BlockArrival
import Hub.Runs
import Mathlib

namespace Validation

open Blocks (DB)

/-! ## Deliveries -/

/-- Valid headers over one genesis block, and how far each is from the end of its chain of
parents. -/
structure HeaderTree (H : Type) extends Headers H where
  height : H → ℕ
  height_root : ∀ h, previousBlockId h = none → height h = 0
  height_child : ∀ h p, previousBlockId h = some p → height h = height p + 1
  genesis_prev : previousBlockId hashGenesisBlock = none
  validBits : ∀ h, ValidBits (bits h)

namespace HeaderTree

variable {H : Type} (P : HeaderTree H)

def forest : Forest H where
  parent := P.previousBlockId
  height := P.height
  height_root := P.height_root
  height_child := P.height_child

/-- `GetBlockProof` of a block. -/
def proof (h : H) : ℕ := getBlockProof (P.bits h)

/-- The sum of `GetBlockProof` over a block and its ancestors. -/
def chainProof (h : H) : ℕ := P.forest.pathSum P.proof h

variable {P} {g h : H}

theorem chainProof_of_parent (hp : P.previousBlockId h = some g) :
    P.chainProof h = P.chainProof g + P.proof h :=
  Forest.pathSum_of_parent (F := P.forest) hp

theorem chainProof_of_root (hp : P.previousBlockId h = none) :
    P.chainProof h % 2 ^ 256 = P.proof h := by
  rw [chainProof, Forest.pathSum_of_root (F := P.forest) hp]
  exact Nat.mod_eq_of_lt (getBlockProof_lt _)

/-- A block at height 0 has no parent. -/
theorem root_of_height (hh : P.height h = 0) : P.previousBlockId h = none :=
  Option.eq_none_iff_forall_ne_some.mpr fun g hg => by
    have := P.height_child h g hg
    omega

end HeaderTree

variable {H : Type} [DecidableEq H] (P : HeaderTree H)

/-- The blocks that are delivered, in their order, with `busy` for each delivery.  With a block
its parent is delivered, too, before or after it, down to genesis. -/
structure Delivery where
  order : List (H × Bool)
  closed : ∀ d ∈ order, d.1 ≠ P.hashGenesisBlock →
    ∃ p ∈ P.previousBlockId d.1, ∃ d' ∈ order, d'.1 = p

/-- `blockHeaderValidated` on a valid header. -/
def deliver (s : Engine H) (d : H × Bool) : Option (Engine H) :=
  blockHeaderValidated P.toHeaders s d.1 false d.2

/-- The genesis block, from the database. -/
def genesisArena : Arena H where
  pprev := fun _ => none
  nHeight := 0
  nChainWork := fun _ => P.proof P.hashGenesisBlock
  pskip := fun _ => none
  height_root := by simp
  height_child := by simp
  skip := by simp
  blocks := [P.hashGenesisBlock]
  attached := [0]
  made := by simp
  closed := by simp

/-- The engine at the start: empty, or with the genesis block as `LoadBlockIndexDB` leaves it. -/
def start (loaded : Bool) : Engine H :=
  if loaded then
    { arena := genesisArena P
      index := fun h => if h = P.hashGenesisBlock then some 0 else none
      db :=
        { failed := fun _ => false
          headersChain := ⟨[some 0]⟩
          headerChainTips := [0]
          pindexBestHeader := some 0 }
      orphanBlocks := [] }
  else initial

/-! ## What is to hold in the end -/

/-- The tree of headers: what is at or below a tip. -/
def InTree (s : Engine H) (p : ℕ) : Prop := ∃ t ∈ s.db.headerChainTips, s.arena.Le p t

/-- The index is complete for the blocks `S`. -/
structure Arrived (s : Engine H) (S : List H) : Prop where
  orphans : s.orphanBlocks = []
  entry : ∀ h ∈ S, ∃ p, s.index h = some p ∧ InTree s p ∧
    (∀ q, InTree s q → s.arena.hash q = some h → q = p) ∧
    s.arena.pprev p = (P.previousBlockId h).bind s.index ∧
    s.arena.nHeight p = P.height h ∧
    s.arena.nChainWork p = P.chainProof h % 2 ^ 256

/-- No block is delivered again before all of its ancestors have been. -/
def Unrepeated (loaded : Bool) (order : List (H × Bool)) : Prop :=
  ∀ before d after, order = before ++ d :: after → d.1 ∈ before.map (·.1) →
    ∀ y, P.forest.Le y d.1 → y ∈ before.map (·.1) ∨ (loaded = true ∧ y = P.hashGenesisBlock)

/-! ## Announcing the items -/

variable {P} {s s' u : Engine H} {p q x : ℕ} {g h : H} {items : List ℕ}

omit [DecidableEq H] in
/-- An announcement takes nothing out of the tree. -/
theorem InTree.announce {db' : DB ℕ} (hx : InTree u x)
    (hout : Blocks.AnnounceOutcome u.arena.toBlockIndex u.db p db') :
    InTree { u with db := db' } x := by
  obtain ⟨t, ht, hle⟩ := hx
  cases hout with
  | known htips _ _ => exact ⟨t, by rw [htips]; exact ht, hle⟩
  | added htips _ _ =>
    by_cases htp : u.arena.Le t p
    · exact ⟨p, by simp [htips], Forest.Le.trans hle htp⟩
    · refine ⟨t, ?_, hle⟩
      simp only [htips]
      exact List.mem_append_left _ ((List.mem_eraseP_of_neg (by
        rw [decide_eq_true_eq]
        exact htp)).mpr ht)

omit [DecidableEq H] in
/-- What is announced is in the tree. -/
theorem inTree_announce {db' : DB ℕ} (hu : Wf u)
    (hchain : ∀ t, u.db.headersChain.IsPath u.arena.toBlockIndex t → InTree u t)
    (hout : Blocks.AnnounceOutcome u.arena.toBlockIndex u.db p db') :
    InTree { u with db := db' } p := by
  cases hout with
  | known htips hsame hk =>
    have hin : InTree u p := by
      rcases hk with hcontains | ⟨i, hi, hle⟩
      · rcases hu.chain with ⟨hnil, -⟩ | ⟨t, -, ht⟩
        · simp [CChain.contains, hnil] at hcontains
        · obtain ⟨i, hi, hle⟩ := hchain t ht
          exact ⟨i, hi, Forest.Le.trans (ht.contains_iff.mp hcontains) hle⟩
      · exact ⟨i, hi, hle⟩
    exact hin.announce (.known htips hsame hk)
  | added htips _ _ => exact ⟨p, by simp [htips], Forest.Le.refl p⟩

/-- The state of the loop that announces `items`, from the engine `s`, when `rest` is still to
come. -/
structure Progress (s : Engine H) (items rest : List ℕ) (u : Engine H) : Prop where
  tree : ∀ x ∈ items, x ∈ rest ∨ InTree u x
  tree_mono : ∀ x, InTree s x → InTree u x
  chain : ∀ t, u.db.headersChain.IsPath u.arena.toBlockIndex t → InTree u t
  index : ∀ x ∈ items, x ∈ rest ∨ ∀ g, s.arena.hash x = some g → ∃ q, u.index g = some q
  index_mono : ∀ g q, s.index g = some q → u.index g = some q
  index_new : ∀ g q, u.index g = some q → s.index g = some q ∨ q ∈ items

theorem index_insertIndex_mono (hg : u.index g = some q) : (insertIndex u x).index g = some q := by
  unfold insertIndex
  cases hx : u.arena.hash x with
  | none => exact hg
  | some g' =>
    simp only
    split
    · next hnone =>
      have hne : g ≠ g' := by
        rintro rfl
        simp [hg] at hnone
      simp only [Function.update_of_ne hne]
      exact hg
    · exact hg

theorem index_insertIndex_new (hg : (insertIndex u x).index g = some q) :
    u.index g = some q ∨ q = x := by
  unfold insertIndex at hg
  cases hx : u.arena.hash x with
  | none =>
    rw [hx] at hg
    exact .inl hg
  | some g' =>
    rw [hx] at hg
    simp only at hg
    split at hg
    · by_cases hgg : g = g'
      · subst hgg
        simp only [Function.update_self] at hg
        exact .inr (Option.some.inj hg).symm
      · simp only [Function.update_of_ne hgg] at hg
        exact .inl hg
    · exact .inl hg

theorem index_insertIndex_self (hx : u.arena.hash x = some g) :
    ∃ q, (insertIndex u x).index g = some q := by
  cases hg : u.index g with
  | some q => exact ⟨q, index_insertIndex_mono hg⟩
  | none => exact ⟨x, by simp [insertIndex, hx, hg]⟩

/-- One round of the loop. -/
theorem Progress.step {rest : List ℕ} {db' : DB ℕ} (h : Progress s items (x :: rest) u)
    (hu : Wf u) (hx : x ∈ items) (harena : u.arena = s.arena)
    (hout : Blocks.AnnounceOutcome u.arena.toBlockIndex u.db x db') :
    Progress s items rest { insertIndex u x with db := db' } := by
  have hin : ∀ y, InTree { u with db := db' } y → InTree { insertIndex u x with db := db' } y := by
    rintro y ⟨t, ht, hle⟩
    exact ⟨t, ht, by rw [arena_insertIndex]; exact hle⟩
  have hself := hin x (inTree_announce hu h.chain hout)
  refine ⟨fun y hy => ?_, fun y hy => hin y ((h.tree_mono y hy).announce hout), fun t ht => ?_,
    fun y hy => ?_, fun g q hg => index_insertIndex_mono (h.index_mono g q hg), fun g q hg => ?_⟩
  · rcases h.tree y hy with hmem | htree
    · rcases List.mem_cons.mp hmem with rfl | hmem
      · exact .inr hself
      · exact .inl hmem
    · exact .inr (hin y (htree.announce hout))
  · simp only [arena_insertIndex] at ht
    rcases hout.isPath with hsame | hpath
    · rw [hsame] at ht
      exact hin t ((h.chain t ht).announce hout)
    · obtain rfl : x = t := Option.some.inj (hpath.tip_eq.symm.trans ht.tip_eq)
      exact hself
  · rcases h.index y hy with hmem | hindex
    · rcases List.mem_cons.mp hmem with rfl | hmem
      · exact .inr fun g hg => index_insertIndex_self (by rw [harena]; exact hg)
      · exact .inl hmem
    · refine .inr fun g hg => ?_
      obtain ⟨q, hq⟩ := hindex g hg
      exact ⟨q, index_insertIndex_mono hq⟩
  · rcases index_insertIndex_new hg with hg | rfl
    · exact h.index_new g q hg
    · exact .inr hx

/-- What accepting the attached object `p` makes of the engine `s`; `l` are the objects that
were parked. -/
structure Accepted (P : Headers H) (s : Engine H) (p : ℕ) (l : List ℕ) (s' : Engine H) : Prop where
  wf : Wf s'
  adopted : Adopted P [p] s.arena s.orphanBlocks s'.arena s'.orphanBlocks l
  failed : s'.db.failed = s.db.failed
  tree : ∀ x ∈ p :: l, InTree s' x
  tree_mono : ∀ x, InTree s x → InTree s' x
  index : ∀ x ∈ p :: l, ∀ g, s.arena.hash x = some g → ∃ q, s'.index g = some q
  index_mono : ∀ g q, s.index g = some q → s'.index g = some q
  index_new : ∀ g q, s'.index g = some q → s.index g = some q ∨ q ∈ p :: l

/-- **Accepting a valid object** fails no assertion. -/
theorem Wf.accept {P : Headers H} (hs : Wf s) (hp : p ∈ s.arena.attached)
    (hf : s.db.failed p = false)
    (hchain : ∀ t, s.db.headersChain.IsPath s.arena.toBlockIndex t → InTree s t) :
    ∃ s' l, acceptHeader P s p false = some s' ∧ Accepted P s p l s' := by
  have hR : ∀ r ∈ [p], r ∈ s.arena.attached := by simpa using hp
  obtain ⟨B, rest, l, adopted, hB, hperm, hwf, hitems, heq⟩ := hs.acceptHeader_eq (P := P) hp hf
  have hgrown := hB.adopts.grown hR
  have hmono : ∀ x, InTree s x → InTree { s with arena := B, orphanBlocks := rest } x := by
    rintro x ⟨t, ht, hle⟩
    exact ⟨t, ht, (hgrown.le_iff (hs.tips t ht)).mpr hle⟩
  obtain ⟨s', hrun, hwf', harena, horphans, hfailed, hQ⟩ := hwf.foldlM_announce
    (Q := Progress { s with arena := B, orphanBlocks := rest } (p :: adopted)) (p :: adopted) _
    hitems
    ⟨fun x hx => .inl hx, fun x hx => hx,
      fun t ht => hmono t (hchain t (hs.isPath_of_grown hgrown ht).2),
      fun x hx => .inl hx, fun _ _ hg => hg, fun _ _ hg => .inl hg⟩
    fun u x rest db' hx hu hua _ hQ hout _ => hQ.step hu hx hua hout
  have hmem : ∀ x, x ∈ p :: adopted ↔ x ∈ p :: l := fun x => by
    rw [List.mem_cons, List.mem_cons, hperm.mem_iff]
  refine ⟨s', l, heq.trans hrun, hwf', ?_, hfailed, fun x hx => ?_, fun x hx => ?_,
    fun x hx g hg => ?_, hQ.index_mono, fun g q hg => ?_⟩
  · rw [harena, horphans]
    exact hB
  · exact (hQ.tree x ((hmem x).mpr hx)).resolve_left List.not_mem_nil
  · exact hQ.tree_mono x (hmono x hx)
  · refine (hQ.index x ((hmem x).mpr hx)).resolve_left List.not_mem_nil g ?_
    rw [← hg]
    exact congrFun hB.adopts.hash_eq x
  · exact (hQ.index_new g q hg).imp_right (hmem q).mp

/-! ## Deliveries, one after the other -/

/-- On the attached object `q` there is `p`, a child with the work that comes with it. -/
def Linked (P : Headers H) (A : Arena H) (p q : ℕ) : Prop :=
  IsChild P A p q ∧ A.nChainWork p = chainWorkOver P A p q

omit [DecidableEq H] in
theorem Linked.congr {P : Headers H} {A B : Arena H} (h : Linked P A p q)
    (hp : B.hash p = A.hash p) (hq : B.hash q = A.hash q)
    (hwp : B.nChainWork p = A.nChainWork p) (hwq : B.nChainWork q = A.nChainWork q) :
    Linked P B p q := by
  refine ⟨?_, ?_⟩
  · rw [IsChild, hp, hq]
    exact h.1
  · rw [hwp, chainWorkOver_congr hp hwq]
    exact h.2

/-- What holds after the blocks `D` were delivered; `base` is the work of genesis. -/
structure Tracked (P : HeaderTree H) (s : Engine H) (D : List H) (base : ℕ) : Prop where
  wf : Wf s
  unfailed : ∀ x, s.db.failed x = false
  tree : ∀ p ∈ s.arena.attached, InTree s p
  known : ∀ h, h ∈ D ↔ (∃ p, s.index h = some p) ∨ ∃ o ∈ s.orphanBlocks, s.arena.hash o = some h
  apart : ∀ o ∈ s.orphanBlocks, ∀ h, s.arena.hash o = some h → s.index h = none
  waiting : ∀ o ∈ s.orphanBlocks, ∀ h, s.arena.hash o = some h →
    h ≠ P.hashGenesisBlock ∧ ∀ g, P.previousBlockId h = some g → s.index g = none
  all : ∀ p < s.arena.blocks.length, p ∈ s.arena.attached ∨ p ∈ s.orphanBlocks
  indexed : ∀ p ∈ s.arena.attached, ∀ h, s.arena.hash p = some h → ∃ q, s.index h = some q
  closed : ∀ h q, s.index h = some q → ∀ g, P.previousBlockId h = some g → ∃ r, s.index g = some r
  linked : ∀ p q, s.arena.pprev p = some q → Linked P.toHeaders s.arena p q
  root : ∀ p ∈ s.arena.attached, s.arena.pprev p = none →
    s.arena.hash p = some P.hashGenesisBlock ∧ s.arena.nChainWork p = base
  genesis : base = 0 ∨ ∃ p, s.index P.hashGenesisBlock = some p

/-- The object `p` for the block `h` is attached in `s₁`, and otherwise `s₁` is `s`. -/
structure Ready (P : HeaderTree H) (s s₁ : Engine H) (h : H) (p : ℕ) (base : ℕ) : Prop where
  wf : Wf s₁
  grown : Arena.Grown s.arena s₁.arena
  index_eq : s₁.index = s.index
  orphans_eq : s₁.orphanBlocks = s.orphanBlocks
  db_eq : s₁.db = s.db
  attached_iff : ∀ x, x ∈ s₁.arena.attached ↔ x ∈ s.arena.attached ∨ x = p
  made : ∀ x < s₁.arena.blocks.length, x < s.arena.blocks.length ∨ x = p
  hash : s₁.arena.hash p = some h
  hash_eq : ∀ x < s.arena.blocks.length, s₁.arena.hash x = s.arena.hash x
  free : ∀ o ∈ s.orphanBlocks, s.arena.hash o ≠ some h
  prev : ∀ g, P.previousBlockId h = some g → ∃ q, s.index g = some q
  linked : ∀ q, s₁.arena.pprev p = some q → Linked P.toHeaders s₁.arena p q
  root : s₁.arena.pprev p = none → h = P.hashGenesisBlock ∧ s₁.arena.nChainWork p = base

section Accept

variable {s₁ : Engine H} {D : List H} {base : ℕ} {l : List ℕ} {o : ℕ}

omit [DecidableEq H]

/-- A step that accepts the block `h`, from `s` through `s₁` to `s'`. -/
structure Taken (P : HeaderTree H) (s s₁ s' : Engine H) (D : List H) (h : H) (p : ℕ) (l : List ℕ)
    (base : ℕ) : Prop where
  before : Tracked P s D base
  ready : Ready P s s₁ h p base
  accepted : Accepted P.toHeaders s₁ p l s'

variable (k : Taken P s s₁ s' D h p l base)

include k

theorem Taken.roots : ∀ r ∈ [p], r ∈ s₁.arena.attached := by
  simpa using (k.ready.attached_iff p).mpr (.inr rfl)

theorem Taken.hash_orphan (ho : o ∈ s.orphanBlocks) : s'.arena.hash o = s.arena.hash o := by
  rw [k.accepted.adopted.adopts.hash_eq, k.ready.hash_eq o (k.before.wf.loose o ho).1]

/-- What is parked after the step was parked before. -/
theorem Taken.mem_orphans (ho : o ∈ s'.orphanBlocks) : o ∈ s.orphanBlocks := by
  rw [← k.ready.orphans_eq]
  exact k.accepted.adopted.sublist.subset ho

theorem Taken.mem_adopted (ho : o ∈ l) : o ∈ s.orphanBlocks := by
  rw [← k.ready.orphans_eq, k.accepted.adopted.perm.mem_iff]
  exact List.mem_append_left _ ho

/-- Nothing that is still parked has an accepted parent. -/
theorem Taken.not_isChild (ho : o ∈ s'.orphanBlocks) (hq : q ∈ p :: l) :
    ¬ IsChild P.toHeaders s'.arena o q := by
  rw [isChild_congr k.accepted.adopted.adopts.hash_eq]
  exact k.accepted.adopted.none_left o ho q (by simpa using hq)

/-- A parked block that is adopted has an accepted parent. -/
theorem Taken.exists_parent (hx : x ∈ l) : ∃ q ∈ p :: l, s'.arena.pprev x = some q ∧
    IsChild P.toHeaders s'.arena x q ∧
    s'.arena.nChainWork x = chainWorkOver P.toHeaders s'.arena x q := by
  simpa using k.accepted.adopted.adopts.exists_pprev (k.roots) hx

/-- The attached objects: those that were attached, `p`, and the adopted ones. -/
theorem Taken.attached_cases (hx : x ∈ s'.arena.attached) :
    x ∈ s.arena.attached ∨ x ∈ p :: l := by
  rcases (k.accepted.adopted.adopts.attached_iff (k.roots)).mp hx with hx | hx
  · rcases (k.ready.attached_iff x).mp hx with hx | rfl
    · exact .inl hx
    · exact .inr List.mem_cons_self
  · exact .inr (List.mem_cons_of_mem p hx)

theorem Taken.grown : Arena.Grown s.arena s'.arena :=
  k.ready.grown.trans (k.accepted.adopted.adopts.grown (k.roots))

/-- The index has the entries that it had, and those for the accepted objects. -/
theorem Taken.index_cases (hg : s'.index g = some q) :
    s.index g = some q ∨ (q = p ∧ g = h) ∨ (q ∈ l ∧ s.arena.hash q = some g) := by
  have hhash := (k.accepted.wf.index g q hg).2
  rcases k.accepted.index_new g q hg with hold | hq
  · rw [k.ready.index_eq] at hold
    exact .inl hold
  · rcases List.mem_cons.mp hq with rfl | hq
    · rw [k.accepted.adopted.adopts.hash_eq, k.ready.hash] at hhash
      exact .inr (.inl ⟨rfl, (Option.some.inj hhash).symm⟩)
    · rw [k.hash_orphan (k.mem_adopted hq)] at hhash
      exact .inr (.inr ⟨hq, hhash⟩)

theorem Taken.mono (hg : s.index g = some q) : s'.index g = some q := by
  refine k.accepted.index_mono g q ?_
  rw [k.ready.index_eq]
  exact hg

theorem Taken.index_of_mem (hx : x ∈ p :: l) (hg : s'.arena.hash x = some g) :
    ∃ q, s'.index g = some q :=
  k.accepted.index x hx g (by rw [← k.accepted.adopted.adopts.hash_eq]; exact hg)

/-- **Accepting a block** keeps track. -/
theorem Taken.tracked : Tracked P s' (h :: D) base := by
  have hgrown := k.grown
  have hadopts := k.accepted.adopted.adopts
  have hlt : ∀ x ∈ s.arena.attached, s'.arena.hash x = s.arena.hash x := fun x hx => by
    rw [hadopts.hash_eq, k.ready.hash_eq x (s.arena.made x hx)]
  refine ⟨k.accepted.wf, ?_, ?_, ?_, ?_, ?_, ?_, ?_, ?_, ?_, ?_,
    k.before.genesis.imp_right fun ⟨q, hq⟩ => ⟨q, k.mono hq⟩⟩
  · intro x
    rw [k.accepted.failed, k.ready.db_eq]
    exact k.before.unfailed x
  · -- tree
    intro x hx
    rcases k.attached_cases hx with hx | hx
    · apply k.accepted.tree_mono
      obtain ⟨t, htip, hle⟩ := k.before.tree x hx
      exact ⟨t, by rw [k.ready.db_eq]; exact htip, (k.ready.grown.le_iff (k.before.wf.tips t htip)).mpr hle⟩
    · exact k.accepted.tree x hx
  · -- known
    intro g
    rw [List.mem_cons]
    constructor
    · rintro (rfl | hg)
      · exact .inl (k.accepted.index p List.mem_cons_self g k.ready.hash)
      · rcases (k.before.known g).mp hg with ⟨q, hq⟩ | ⟨o, ho, hhash⟩
        · exact .inl ⟨q, k.mono hq⟩
        · have hhash' := (k.hash_orphan ho).trans hhash
          rw [← k.ready.orphans_eq, k.accepted.adopted.perm.mem_iff] at ho
          rcases List.mem_append.mp ho with ho | ho
          · exact .inl (k.index_of_mem (List.mem_cons_of_mem p ho) hhash')
          · exact .inr ⟨o, ho, hhash'⟩
    · rintro (⟨q, hq⟩ | ⟨o, ho, hhash⟩)
      · rcases k.index_cases hq with hold | ⟨-, rfl⟩ | ⟨hl, hhash⟩
        · exact .inr ((k.before.known g).mpr (.inl ⟨q, hold⟩))
        · exact .inl rfl
        · exact .inr ((k.before.known g).mpr (.inr ⟨q, k.mem_adopted hl, hhash⟩))
      · have ho' := k.mem_orphans ho
        rw [k.hash_orphan ho'] at hhash
        exact .inr ((k.before.known g).mpr (.inr ⟨o, ho', hhash⟩))
  · -- apart
    intro o ho g hhash
    have ho' := k.mem_orphans ho
    have hold := hhash
    rw [k.hash_orphan ho'] at hold
    refine Option.eq_none_iff_forall_ne_some.mpr fun q hq => ?_
    rcases k.index_cases hq with hind | ⟨-, rfl⟩ | ⟨hl, hhashq⟩
    · rw [k.before.apart o ho' g hold] at hind
      cases hind
    · exact k.ready.free o ho' hold
    · -- two parked blocks with one hash have one parent
      obtain ⟨r, hr', -, hchild, -⟩ := k.exists_parent hl
      refine k.not_isChild ho hr' ?_
      rw [IsChild, ← hchild, hhash, k.hash_orphan (k.mem_adopted hl), hhashq]
  · -- waiting
    intro o ho g hhash
    have ho' := k.mem_orphans ho
    have hold := hhash
    rw [k.hash_orphan ho'] at hold
    obtain ⟨hne, hwait⟩ := k.before.waiting o ho' g hold
    refine ⟨hne, fun g' hg' => Option.eq_none_iff_forall_ne_some.mpr fun q hq => ?_⟩
    have hhashq := (k.accepted.wf.index g' q hq).2
    rcases k.accepted.index_new g' q hq with hind | hmem
    · rw [k.ready.index_eq, hwait g' hg'] at hind
      cases hind
    · exact k.not_isChild ho hmem (by rw [IsChild, hhash, hhashq]; exact hg')
  · -- all
    intro x hx
    rw [hadopts.blocks_eq] at hx
    rw [hadopts.attached_iff (k.roots), k.ready.attached_iff]
    rcases k.ready.made x hx with hx | rfl
    · rcases k.before.all x hx with hx | hx
      · exact .inl (.inl (.inl hx))
      · rw [← k.ready.orphans_eq, k.accepted.adopted.perm.mem_iff] at hx
        rcases List.mem_append.mp hx with hx | hx
        · exact .inl (.inr hx)
        · exact .inr hx
    · exact .inl (.inl (.inr rfl))
  · -- indexed
    intro x hx g hg
    rcases k.attached_cases hx with hold | hmem
    · rw [hlt x hold] at hg
      obtain ⟨q, hq⟩ := k.before.indexed x hold g hg
      exact ⟨q, k.mono hq⟩
    · exact k.index_of_mem hmem hg
  · -- closed
    intro g q hq g' hg'
    rcases k.index_cases hq with hold | ⟨-, rfl⟩ | ⟨hl, hhash⟩
    · obtain ⟨r, hr'⟩ := k.before.closed g q hold g' hg'
      exact ⟨r, k.mono hr'⟩
    · obtain ⟨r, hr'⟩ := k.ready.prev g' hg'
      exact ⟨r, k.mono hr'⟩
    · obtain ⟨r, hmem, -, hchild, -⟩ := k.exists_parent hl
      refine k.index_of_mem hmem ?_
      rw [← hchild, k.hash_orphan (k.mem_adopted hl), hhash]
      exact hg'
  · -- linked
    intro x q hq
    have hx := (s'.arena.closed x q hq).1
    rcases (hadopts.attached_iff k.roots).mp hx with hx | hx
    · have hg₁ := hadopts.grown k.roots
      rw [hg₁.pprev x hx] at hq
      have hqa := (s₁.arena.closed x q hq).2
      have hlink : Linked P.toHeaders s₁.arena x q := by
        rcases (k.ready.attached_iff x).mp hx with hx | rfl
        · rw [k.ready.grown.pprev x hx] at hq
          have hqa' := (s.arena.closed x q hq).2
          exact (k.before.linked x q hq).congr (k.ready.hash_eq x (s.arena.made x hx))
            (k.ready.hash_eq q (s.arena.made q hqa')) (k.ready.grown.nChainWork x hx)
            (k.ready.grown.nChainWork q hqa')
        · exact k.ready.linked q hq
      exact hlink.congr (congrFun hadopts.hash_eq x) (congrFun hadopts.hash_eq q)
        (hg₁.nChainWork x hx) (hg₁.nChainWork q hqa)
    · obtain ⟨r, -, hprev, hchild, hwork⟩ := k.exists_parent hx
      obtain rfl := Option.some.inj (hprev.symm.trans hq)
      exact ⟨hchild, hwork⟩
  · -- root
    intro x hx hroot
    rcases (hadopts.attached_iff k.roots).mp hx with hx | hx
    · have hg₁ := hadopts.grown k.roots
      rw [hg₁.pprev x hx] at hroot
      rw [hg₁.nChainWork x hx]
      rcases (k.ready.attached_iff x).mp hx with hx | rfl
      · rw [k.ready.grown.pprev x hx] at hroot
        rw [k.ready.grown.nChainWork x hx, hlt x hx]
        exact k.before.root x hx hroot
      · rw [hadopts.hash_eq, k.ready.hash]
        exact ⟨congrArg some (k.ready.root hroot).1, (k.ready.root hroot).2⟩
    · obtain ⟨r, -, hprev, -, -⟩ := k.exists_parent hx
      rw [hprev] at hroot
      cases hroot

end Accept

section Deliver

variable {D : List H} {base : ℕ} {r : Engine H × ℕ} {d : H × Bool}

/-- The parent of a header is looked up in the index. -/
theorem Tracked.findPrev_eq (ht : Tracked P s D base) (h : H) :
    findPrev P.toHeaders s h = (P.previousBlockId h).bind s.index := by
  unfold findPrev
  cases hprev : P.previousBlockId h with
  | none => rfl
  | some g =>
    simp only [Option.bind_some]
    cases hg : s.index g with
    | some q => rfl
    | none =>
      rw [Option.none_or]
      refine List.find?_eq_none.mpr fun tip htip hhash => ?_
      obtain ⟨q, hq⟩ := ht.indexed tip (ht.wf.tips tip htip) g (by simpa using hhash)
      rw [hg] at hq
      cases hq

/-- A header without a parked copy that gets an object on top of its parent. -/
theorem Tracked.ready (ht : Tracked P s D base) (hc : Created P.toHeaders s h r)
    (hnone : s.index h = none) (hin : r.2 ∈ r.1.arena.attached) :
    Ready P s r.1 h r.2 base := by
  have hprev := ht.findPrev_eq h
  have hfresh := length_not_mem_attached s.arena h
  have hhash : ∀ x < s.arena.blocks.length, r.1.arena.hash x = s.arena.hash x := by
    intro x hx
    rw [Arena.hash, Arena.hash, hc.blocks_eq, List.getElem?_append_left hx]
  have hmade : ∀ x < r.1.arena.blocks.length, x < s.arena.blocks.length ∨ x = r.2 := by
    intro x hx
    rw [hc.blocks_eq, List.length_append, List.length_singleton] at hx
    rw [hc.snd_eq]
    omega
  have hattached : ∀ x, x ∈ r.1.arena.attached ↔ x ∈ s.arena.attached ∨ x = r.2 := by
    intro x
    constructor
    · exact hc.mem_attached
    · rintro (hx | rfl)
      · exact hc.grown.attached x hx
      · exact hin
  have hwf := hc.wf ht.wf
  have hgrown := hc.grown
  have hhashp := hc.hash_eq
  cases hc with
  | @child q prev hq =>
    have hdb : (if s.db.failed q then s.db.mark [s.arena.blocks.length] else s.db) = s.db := by
      rw [if_neg (by simp [ht.unfailed])]
    rw [hprev] at prev
    obtain ⟨g, hg, hgq⟩ := Option.bind_eq_some_iff.mp prev
    have hl := length_lt_alloc s.arena h
    refine ⟨hwf, hgrown, rfl, rfl, hdb, hattached, hmade, hhashp, hhash, ?_, ?_, ?_, ?_⟩
    · -- a parked copy would wait for the parent
      intro o ho hoh
      have := (ht.waiting o ho h hoh).2 g hg
      rw [hgq] at this
      cases this
    · intro g' hg'
      obtain rfl := Option.some.inj (hg.symm.trans hg')
      exact ⟨q, hgq⟩
    · intro q' hq'
      simp only [Arena.pprev_attach hl hfresh hq, Function.update_self] at hq'
      obtain rfl := Option.some.inj hq'
      have hqh := (ht.wf.index g q hgq).2
      refine ⟨?_, ?_⟩
      · rw [IsChild, hhashp, hgrown.hash q g hqh]
        exact hg
      · rw [chainWorkOver_congr (congrFun Arena.hash_attach _)
          ((Arena.grown_attach hl hfresh hq).nChainWork q hq)]
        simp only [Arena.nChainWork_attach hl hfresh hq, Function.update_self]
    · intro hroot
      simp [Arena.pprev_attach hl hfresh hq] at hroot
  | genesis prev eq made =>
    have hpp : s.arena.pprev s.arena.blocks.length = none :=
      Option.eq_none_iff_forall_ne_some.mpr fun q hq => hfresh (s.arena.closed _ q hq).1
    subst eq
    refine ⟨hwf, hgrown, rfl, rfl, rfl, hattached, hmade, hhashp, hhash, ?_, ?_, ?_, ?_⟩
    · intro o ho hoh
      exact (ht.waiting o ho _ hoh).1 rfl
    · intro g hg
      rw [P.genesis_prev] at hg
      cases hg
    · intro q hq
      exact absurd (s.arena.closed _ q hq).1 hfresh
    · intro _
      have hbase : base = 0 := by
        refine ht.genesis.resolve_right ?_
        rintro ⟨q, hq⟩
        rw [hnone] at hq
        cases hq
      rw [hbase]
      exact ⟨rfl, Function.update_self _ _ _⟩
  | loose prev ne => exact absurd hin hfresh

omit [DecidableEq H] in
/-- A header with an entry can be accepted once more. -/
theorem Tracked.ready_known (ht : Tracked P s D base) (hp : s.index h = some p) :
    Ready P s s h p base := by
  obtain ⟨hattached, hhash⟩ := ht.wf.index h p hp
  refine ⟨ht.wf, Arena.Grown.refl _, rfl, rfl, rfl, fun x => ?_, fun x hx => .inl hx, hhash,
    fun x _ => rfl, fun o ho hoh => ?_, ht.closed h p hp, ht.linked p, fun hroot => ?_⟩
  · constructor
    · exact .inl
    · rintro (hx | rfl)
      · exact hx
      · exact hattached
  · rw [ht.apart o ho h hoh] at hp
    cases hp
  · obtain ⟨hgenesis, hwork⟩ := ht.root p hattached hroot
    exact ⟨Option.some.inj (hhash.symm.trans hgenesis), hwork⟩

/-- Accepting a block that is ready. -/
theorem Ready.deliver {s₁ : Engine H} (hr : Ready P s s₁ h p base) (ht : Tracked P s D base) :
    ∃ s', acceptHeader P.toHeaders s₁ p false = some s' ∧ Tracked P s' (h :: D) base ∧
      s'.arena.blocks = s₁.arena.blocks := by
  have hattached := (hr.attached_iff p).mpr (.inr rfl)
  obtain ⟨s', l, hrun, ha⟩ := hr.wf.accept (P := P.toHeaders) hattached
    (by rw [hr.db_eq]; exact ht.unfailed p) fun t hpath => by
      rw [hr.db_eq] at hpath
      obtain ⟨i, hi, hle⟩ := ht.tree t (ht.wf.isPath_of_grown hr.grown hpath).1
      exact ⟨i, by rw [hr.db_eq]; exact hi, (hr.grown.le_iff (ht.wf.tips i hi)).mpr hle⟩
  exact ⟨s', hrun, Taken.tracked ⟨ht, hr, ha⟩, ha.adopted.adopts.blocks_eq⟩

/-- A header whose parent is unknown is parked. -/
theorem Tracked.park (ht : Tracked P s D base) (hnone : s.index h = none)
    (hprev : findPrev P.toHeaders s h = none) (hne : h ≠ P.hashGenesisBlock) :
    Tracked P
      { s with
        arena := s.arena.alloc h
        orphanBlocks := s.orphanBlocks ++ [s.arena.blocks.length] } (h :: D) base := by
  have hgrown := Arena.grown_alloc s.arena h
  have hfresh := length_not_mem_attached s.arena h
  have hlen : (s.arena.alloc h).blocks.length = s.arena.blocks.length + 1 := by simp [Arena.alloc]
  have hhash : ∀ x < s.arena.blocks.length, (s.arena.alloc h).hash x = s.arena.hash x := by
    intro x hx
    rw [Arena.hash, Arena.hash, Arena.alloc, List.getElem?_append_left hx]
  have hself := Arena.hash_alloc_self s.arena h
  have hold : ∀ o ∈ s.orphanBlocks, (s.arena.alloc h).hash o = s.arena.hash o := fun o ho =>
    hhash o (ht.wf.loose o ho).1
  have hattached : ∀ x ∈ s.arena.attached, (s.arena.alloc h).hash x = s.arena.hash x := fun x hx =>
    hhash x (s.arena.made x hx)
  -- the new object is not parked yet
  have hwf : Wf { s with
      arena := s.arena.alloc h
      orphanBlocks := s.orphanBlocks ++ [s.arena.blocks.length] } := ht.wf.grow hgrown
    (List.nodup_append.mpr ⟨ht.wf.nodup, List.nodup_singleton _, fun x hx y hy hxy => by
      have := (ht.wf.loose x hx).1
      rw [List.mem_singleton.mp hy] at hxy
      omega⟩)
    (fun o ho => by
      rw [hlen]
      rcases List.mem_append.mp ho with ho | ho
      · exact ⟨by have := (ht.wf.loose o ho).1; omega, (ht.wf.loose o ho).2⟩
      · rw [List.mem_singleton.mp ho]
        exact ⟨by omega, hfresh⟩)
  refine ⟨hwf, ht.unfailed, fun x hx => ?_, fun g => ?_, fun o ho g hg => ?_, fun o ho g hg => ?_,
    fun x hx => ?_, fun x hx g hg => ?_, ht.closed, fun x q hq => ?_, fun x hx hroot => ?_,
    ht.genesis⟩
  · obtain ⟨t, htip, hle⟩ := ht.tree x hx
    exact ⟨t, htip, (hgrown.le_iff (ht.wf.tips t htip)).mpr hle⟩
  · rw [List.mem_cons, ht.known g]
    constructor
    · rintro (rfl | hindex | ⟨o, ho, hhasho⟩)
      · exact .inr ⟨_, List.mem_append_right _ List.mem_cons_self, hself⟩
      · exact .inl hindex
      · exact .inr ⟨o, List.mem_append_left _ ho, (hold o ho).trans hhasho⟩
    · rintro (hindex | ⟨o, ho, hhasho⟩)
      · exact .inr (.inl hindex)
      · rcases List.mem_append.mp ho with ho | ho
        · exact .inr (.inr ⟨o, ho, (hold o ho).symm.trans hhasho⟩)
        · rw [List.mem_singleton.mp ho] at hhasho
          exact .inl (Option.some.inj (hhasho.symm.trans hself))
  · rcases List.mem_append.mp ho with ho | ho
    · exact ht.apart o ho g ((hold o ho).symm.trans hg)
    · rw [List.mem_singleton.mp ho] at hg
      rw [Option.some.inj (hg.symm.trans hself)]
      exact hnone
  · rcases List.mem_append.mp ho with ho | ho
    · exact ht.waiting o ho g ((hold o ho).symm.trans hg)
    · rw [List.mem_singleton.mp ho] at hg
      rw [Option.some.inj (hg.symm.trans hself)]
      refine ⟨hne, fun g' hg' => ?_⟩
      rw [ht.findPrev_eq, hg', Option.bind_some] at hprev
      exact hprev
  · simp only [hlen] at hx
    rcases Nat.lt_succ_iff_lt_or_eq.mp hx with hx | rfl
    · exact (ht.all x hx).imp_right (List.mem_append_left _)
    · exact .inr (List.mem_append_right _ List.mem_cons_self)
  · exact ht.indexed x hx g ((hattached x hx).symm.trans hg)
  · have hxa := s.arena.closed x q hq
    exact (ht.linked x q hq).congr (hattached x hxa.1) (hattached q hxa.2)
      (hgrown.nChainWork x hxa.1) (hgrown.nChainWork q hxa.2)
  · obtain ⟨hgenesis, hwork⟩ := ht.root x hx hroot
    exact ⟨(hattached x hx).trans hgenesis, (hgrown.nChainWork x hx).trans hwork⟩

/-- **A delivery** keeps track; it makes an object if the block has no entry yet. -/
theorem Tracked.deliver (ht : Tracked P s D base) (d : H × Bool) :
    ∃ s', deliver P s d = some s' ∧ Tracked P s' (d.1 :: D) base ∧
      s'.arena.blocks = if s.index d.1 = none then s.arena.blocks ++ [d.1] else s.arena.blocks := by
  unfold Validation.deliver blockHeaderValidated
  cases hindex : s.index d.1 with
  | some p =>
    simp only [ht.unfailed p, Bool.false_or, reduceCtorEq, if_false]
    split
    · -- busy
      refine ⟨s, rfl, { ht with known := fun g => ?_ }, rfl⟩
      rw [List.mem_cons, ht.known g]
      refine or_iff_right_of_imp ?_
      rintro rfl
      exact .inl ⟨p, hindex⟩
    · exact (ht.ready_known hindex).deliver ht
  | none =>
    have hc : Created P.toHeaders s d.1 (createBlockIndexFor P.toHeaders s d.1) := ht.wf.created d.1
    simp only [if_true]
    rw [← hc.blocks_eq]
    by_cases hin : (createBlockIndexFor P.toHeaders s d.1).2
        ∈ (createBlockIndexFor P.toHeaders s d.1).1.arena.attached
    · exact (ht.ready hc hindex hin).deliver ht
    · generalize createBlockIndexFor P.toHeaders s d.1 = r at hc hin ⊢
      cases hc with
      | child prev hq =>
        exact absurd (by
          rw [Arena.attached_attach (length_lt_alloc s.arena d.1)
            (length_not_mem_attached s.arena d.1) hq]
          exact List.mem_cons_self) hin
      | genesis prev eq made => exact absurd List.mem_cons_self hin
      | loose prev ne =>
        refine ⟨_, ?_, ht.park hindex prev ne, rfl⟩
        simp only [acceptHeader, ht.unfailed, Bool.or_self, Bool.false_eq_true, if_false, hin,
          not_false_eq_true, if_true]

end Deliver

/-! ## Whole deliveries -/

section Runs

variable {D : List H} {base : ℕ}

omit [DecidableEq H] in
/-- A block that was delivered with all its ancestors has an entry. -/
theorem Tracked.index_of_le (ht : Tracked P s D base)
    (hroots : ∀ g ∈ D, P.previousBlockId g = none → g = P.hashGenesisBlock) :
    ∀ (n : ℕ) (h : H), P.height h = n → (∀ y, P.forest.Le y h → y ∈ D) →
    ∃ p, s.index h = some p := by
  intro n
  induction n with
  | zero =>
    intro h hn hall
    have hh := hall h (Forest.Le.refl h)
    rcases (ht.known h).mp hh with hindex | ⟨o, ho, hhash⟩
    · exact hindex
    · exact absurd (hroots h hh (HeaderTree.root_of_height hn)) (ht.waiting o ho h hhash).1
  | succ n ih =>
    intro h hn hall
    rcases (ht.known h).mp (hall h (Forest.Le.refl h)) with hindex | ⟨o, ho, hhash⟩
    · exact hindex
    · cases hprev : P.previousBlockId h with
      | none =>
        have := P.height_root h hprev
        omega
      | some g =>
        -- a parked block would have a parent without an entry
        have hheight := P.height_child h g hprev
        obtain ⟨q, hq⟩ := ih g (by omega) fun y hy =>
          hall y (hy.trans (Forest.Le.of_parent (F := P.forest) hprev))
        rw [(ht.waiting o ho h hhash).2 g hprev] at hq
        cases hq

omit [DecidableEq H] in
/-- All ancestors of a block with an entry were delivered. -/
theorem Tracked.mem_of_index (ht : Tracked P s D base) (hp : s.index h = some p) {y : H}
    (hy : P.forest.Le y h) : y ∈ D := by
  have hentry : ∃ q, s.index y = some q :=
    hy.induction (P := fun x => ∃ q, s.index x = some q)
      (fun b c hc ⟨q, hq⟩ => ht.closed b q hq c hc) ⟨p, hp⟩
  exact (ht.known y).mpr (.inl hentry)

omit [DecidableEq H] in
theorem Tracked.mem_of_mem_blocks (ht : Tracked P s D base) (hh : h ∈ s.arena.blocks) : h ∈ D := by
  obtain ⟨x, hx, rfl⟩ := List.getElem_of_mem hh
  have hhash : s.arena.hash x = some s.arena.blocks[x] := List.getElem?_eq_getElem hx
  refine (ht.known _).mpr ?_
  rcases ht.all x hx with hattached | ho
  · exact .inl (ht.indexed x hattached _ hhash)
  · exact .inr ⟨x, ho, hhash⟩

omit [DecidableEq H] in
theorem Tracked.mem_blocks (ht : Tracked P s D base) (hh : h ∈ D) : h ∈ s.arena.blocks := by
  rcases (ht.known h).mp hh with ⟨p, hp⟩ | ⟨o, -, ho⟩
  · exact List.mem_of_getElem? (ht.wf.index h p hp).2
  · exact List.mem_of_getElem? ho

/-- No block of `order` is delivered again, after the blocks `D`, before all of its ancestors
have been. -/
def UnrepeatedFrom (P : HeaderTree H) (D : List H) (order : List (H × Bool)) : Prop :=
  ∀ before d after, order = before ++ d :: after → d.1 ∈ before.map (·.1) ∨ d.1 ∈ D →
    ∀ y, P.forest.Le y d.1 → y ∈ before.map (·.1) ∨ y ∈ D

omit [DecidableEq H] in
theorem unrepeatedFrom_cons {d : H × Bool} {order : List (H × Bool)} :
    UnrepeatedFrom P D (d :: order) ↔
      (d.1 ∈ D → ∀ y, P.forest.Le y d.1 → y ∈ D) ∧ UnrepeatedFrom P (d.1 :: D) order := by
  have hswap : ∀ (before : List (H × Bool)) (y : H),
      (y ∈ before.map (·.1) ∨ y ∈ d.1 :: D) ↔ (y ∈ (d :: before).map (·.1) ∨ y ∈ D) := by
    intro before y
    simp only [List.map_cons, List.mem_cons]
    tauto
  constructor
  · intro h
    refine ⟨fun hd y hy => ?_, fun before e after heq he y hy => ?_⟩
    · simpa using h [] d order rfl (.inr hd) y hy
    · rw [hswap] at he ⊢
      exact h (d :: before) e after (by rw [heq, List.cons_append]) he y hy
  · rintro ⟨hhead, htail⟩ before e after heq he y hy
    cases before with
    | nil =>
      rw [List.nil_append] at heq
      obtain ⟨rfl, -⟩ := List.cons.inj heq
      exact .inr (hhead (by simpa using he) y hy)
    | cons c before =>
      rw [List.cons_append] at heq
      obtain ⟨rfl, hrest⟩ := List.cons.inj heq
      rw [← hswap] at he ⊢
      exact htail before e after hrest he y hy

/-- **A run of deliveries.**  No assertion fails, and there are two objects for a block exactly
when a block was repeated. -/
theorem Tracked.run : ∀ (order : List (H × Bool)) (s : Engine H) (D : List H),
    Tracked P s D base →
    (∀ g, g ∈ D ∨ g ∈ order.map (·.1) → P.previousBlockId g = none → g = P.hashGenesisBlock) →
    ∃ s' D', order.foldlM (Validation.deliver P) s = some s' ∧ Tracked P s' D' base ∧
      (∀ g, g ∈ D' ↔ g ∈ order.map (·.1) ∨ g ∈ D) ∧
      (s'.arena.blocks.Nodup ↔ s.arena.blocks.Nodup ∧ UnrepeatedFrom P D order) := by
  intro order
  induction order with
  | nil =>
    intro s D ht _
    refine ⟨s, D, rfl, ht, by simp, ?_⟩
    simp [UnrepeatedFrom]
  | cons d order ih =>
    intro s D ht hroots
    obtain ⟨s₁, hrun, ht₁, hblocks⟩ := ht.deliver d
    obtain ⟨s', D', hrest, ht', hD', hnodup⟩ := ih s₁ (d.1 :: D) ht₁ fun g hg => by
      refine hroots g ?_
      simp only [List.map_cons, List.mem_cons] at hg ⊢
      tauto
    refine ⟨s', D', ?_, ht', fun g => ?_, ?_⟩
    · rw [List.foldlM_cons, hrun]
      exact hrest
    · rw [hD' g]
      simp only [List.map_cons, List.mem_cons]
      tauto
    · rw [hnodup, unrepeatedFrom_cons, ← and_assoc]
      refine and_congr_left' ?_
      -- the object that the delivery makes
      cases hindex : s.index d.1 with
      | some p =>
        rw [hblocks, if_neg (by simp [hindex])]
        exact (and_iff_left fun _ y hy => ht.mem_of_index hindex hy).symm
      | none =>
        rw [hblocks, if_pos hindex, List.nodup_append]
        simp only [List.nodup_singleton, List.mem_singleton, ne_eq, forall_eq, true_and]
        refine and_congr_right fun _ => ?_
        constructor
        · intro hnew hd
          exact absurd rfl (hnew d.1 (ht.mem_blocks hd))
        · rintro hall x hx rfl
          have hd := ht.mem_of_mem_blocks hx
          obtain ⟨q, hq⟩ := ht.index_of_le
            (fun g hg => hroots g (.inl hg)) _ d.1 rfl (hall hd)
          rw [hindex] at hq
          cases hq

end Runs

/-! ## The end of a delivery -/

section End

variable {D : List H} {base : ℕ}

omit [DecidableEq H] in
theorem tracked_initial : Tracked P initial [] 0 where
  wf := Wf.initial
  unfailed := fun _ => rfl
  tree := by simp [initial, Arena.empty]
  known := by simp [initial]
  apart := by simp [initial]
  waiting := by simp [initial]
  all := by simp [initial, Arena.empty]
  indexed := by simp [initial, Arena.empty]
  closed := by simp [initial]
  linked := by simp [initial, Arena.empty]
  root := by simp [initial, Arena.empty]
  genesis := .inl rfl

theorem tracked_loaded :
    Tracked P (start P true) [P.hashGenesisBlock] (P.proof P.hashGenesisBlock) := by
  have hpath : (start P true).db.headersChain.IsPath (start P true).arena.toBlockIndex 0 := rfl
  refine ⟨⟨.inr ⟨0, List.mem_cons_self, hpath⟩, ?_, ?_, ?_, List.nodup_nil, ?_⟩, fun _ => rfl,
    ?_, ?_, ?_, ?_, ?_, ?_, ?_, ?_, ?_, .inr ⟨0, by simp [start]⟩⟩
  · simp [start, genesisArena]
  · intro h p hp
    by_cases hh : h = P.hashGenesisBlock
    · subst hh
      obtain rfl : p = 0 := by simpa [start] using hp.symm
      simp [start, genesisArena, Arena.hash]
    · simp [start, hh] at hp
  · simp [start]
  · simp [start]
  · intro p hp
    obtain rfl : p = 0 := by simpa [start, genesisArena] using hp
    exact ⟨0, by simp [start], Forest.Le.refl 0⟩
  · intro h
    by_cases hh : h = P.hashGenesisBlock
    · simp [start, hh]
    · simp [start, hh]
  · simp [start]
  · simp [start]
  · intro p hp
    obtain rfl : p = 0 := by simpa [start, genesisArena] using hp
    exact .inl (by simp [start, genesisArena])
  · intro p hp h hh
    obtain rfl : p = 0 := by simpa [start, genesisArena] using hp
    obtain rfl : P.hashGenesisBlock = h := by simpa [start, genesisArena, Arena.hash] using hh
    exact ⟨0, by simp [start]⟩
  · intro h q hq g hg
    by_cases hh : h = P.hashGenesisBlock
    · rw [hh, P.genesis_prev] at hg
      cases hg
    · simp [start, hh] at hq
  · simp [start, genesisArena]
  · intro p hp _
    obtain rfl : p = 0 := by simpa [start, genesisArena] using hp
    simp [start, genesisArena, Arena.hash]

omit [DecidableEq H] in
/-- If no block has two objects, then every object has the entry for its parent below it. -/
theorem Tracked.pprev_eq (ht : Tracked P s D base) (hnodup : s.arena.blocks.Nodup)
    (hp : s.index h = some p) : s.arena.pprev p = (P.previousBlockId h).bind s.index := by
  obtain ⟨hattached, hhash⟩ := ht.wf.index h p hp
  cases hprev : s.arena.pprev p with
  | none =>
    obtain ⟨hgenesis, -⟩ := ht.root p hattached hprev
    rw [Option.some.inj (hhash.symm.trans hgenesis), P.genesis_prev]
    rfl
  | some q =>
    have hchild := (ht.linked p q hprev).1
    rw [IsChild, hhash, Option.bind_some] at hchild
    have hq := (s.arena.closed p q hprev).2
    have hqlt := s.arena.made q hq
    have hhashq : s.arena.hash q = some s.arena.blocks[q] := List.getElem?_eq_getElem hqlt
    obtain ⟨r, hr⟩ := ht.indexed q hq _ hhashq
    rw [hchild, hhashq, Option.bind_some, hr]
    -- the entry for the parent is `q`
    have hhashr := (ht.wf.index _ r hr).2
    have heq : r = q := by
      refine (List.getElem?_inj (s.arena.made r (ht.wf.index _ r hr).1) hnodup).mp ?_
      exact hhashr.trans hhashq.symm
    rw [heq]

omit [DecidableEq H] in
/-- Heights and work, by induction along the chain of parents. -/
theorem Tracked.height_work (ht : Tracked P s D (P.proof P.hashGenesisBlock))
    (hnodup : s.arena.blocks.Nodup) : ∀ (n : ℕ) (h : H) (p : ℕ), P.height h = n →
    s.index h = some p →
    s.arena.nHeight p = n ∧ s.arena.nChainWork p = P.chainProof h % 2 ^ 256 := by
  intro n
  induction n with
  | zero =>
    intro h p hn hp
    have hroot := HeaderTree.root_of_height hn
    have hprev := ht.pprev_eq hnodup hp
    rw [hroot, Option.bind_none] at hprev
    obtain ⟨hattached, hhash⟩ := ht.wf.index h p hp
    obtain ⟨hgenesis, hwork⟩ := ht.root p hattached hprev
    obtain rfl := Option.some.inj (hhash.symm.trans hgenesis)
    refine ⟨s.arena.height_root p hprev, ?_⟩
    rw [hwork, HeaderTree.chainProof_of_root hroot]
  | succ n ih =>
    intro h p hn hp
    cases hpar : P.previousBlockId h with
    | none =>
      have := P.height_root h hpar
      omega
    | some g =>
      have hheight := P.height_child h g hpar
      obtain ⟨q, hq⟩ := ht.closed h p hp g hpar
      have hprev := ht.pprev_eq hnodup hp
      rw [hpar, Option.bind_some, hq] at hprev
      obtain ⟨hqh, hqw⟩ := ih g q (by omega) hq
      refine ⟨by rw [s.arena.height_child p q hprev, hqh], ?_⟩
      rw [(ht.linked p q hprev).2, chainWorkOver, (ht.wf.index h p hp).2, hqw,
        HeaderTree.chainProof_of_parent hpar, Option.map_some, Option.getD_some, Nat.mod_add_mod]
      rfl

omit [DecidableEq H] in
/-- A delivery of any block includes genesis. -/
theorem Delivery.genesis_mem (d : Delivery P) (hne : d.order ≠ []) :
    P.hashGenesisBlock ∈ d.order.map (·.1) := by
  have hdown : ∀ (n : ℕ) (e : H × Bool), e ∈ d.order → P.height e.1 = n →
      P.hashGenesisBlock ∈ d.order.map (·.1) := by
    intro n
    induction n with
    | zero =>
      intro e he hn
      by_cases hg : e.1 = P.hashGenesisBlock
      · exact List.mem_map.mpr ⟨e, he, hg⟩
      · obtain ⟨g, hg, -⟩ := d.closed e he hg
        have := P.height_child e.1 g hg
        omega
    | succ n ih =>
      intro e he hn
      by_cases hg : e.1 = P.hashGenesisBlock
      · exact List.mem_map.mpr ⟨e, he, hg⟩
      · obtain ⟨g, hg, e', he', rfl⟩ := d.closed e he hg
        have := P.height_child e.1 e'.1 hg
        exact ih e' he' (by omega)
  obtain ⟨e, he⟩ := List.exists_mem_of_ne_nil _ hne
  exact hdown _ e he rfl

omit [DecidableEq H] in
/-- Genesis is the only block of a delivery without a parent. -/
theorem Delivery.roots (d : Delivery P) (hg : g ∈ d.order.map (·.1))
    (hroot : P.previousBlockId g = none) : g = P.hashGenesisBlock := by
  obtain ⟨e, he, rfl⟩ := List.mem_map.mp hg
  by_contra hne
  obtain ⟨p, hp, -⟩ := d.closed e he hne
  rw [Option.mem_def, hroot] at hp
  cases hp

omit [DecidableEq H] in
theorem unrepeated_iff {loaded : Bool} {order : List (H × Bool)} :
    Unrepeated P loaded order ↔
      UnrepeatedFrom P (if loaded then [P.hashGenesisBlock] else []) order := by
  have hmem : ∀ y, y ∈ (if loaded then [P.hashGenesisBlock] else []) ↔
      loaded = true ∧ y = P.hashGenesisBlock := by
    intro y
    cases loaded <;> simp
  unfold Unrepeated UnrepeatedFrom
  simp only [hmem]
  constructor
  · rintro h before d after heq (hd | ⟨hl, hd⟩) y hy
    · exact h before d after heq hd y hy
    · rw [hd] at hy
      exact .inr ⟨hl, Forest.eq_of_le_root (F := P.forest) P.genesis_prev hy⟩
  · intro h before d after heq hd y hy
    exact h before d after heq (.inl hd) y hy

omit [DecidableEq H] in
/-- In the end nothing is parked, and if no block has two objects then all is right. -/
theorem Tracked.arrived (d : Delivery P) (ht : Tracked P s D (P.proof P.hashGenesisBlock))
    (hD : ∀ g, g ∈ D ↔ g ∈ d.order.map (·.1)) (hnodup : s.arena.blocks.Nodup) :
    Arrived P s (d.order.map (·.1)) := by
  have hentry : ∀ g ∈ D, ∃ p, s.index g = some p := by
    intro g hg
    refine ht.index_of_le (fun x hx => d.roots ((hD x).mp hx)) _ g rfl fun y hy => ?_
    refine hy.induction (P := (· ∈ D)) (fun b c hc hb => ?_) hg
    rw [hD] at hb ⊢
    obtain ⟨e, he, rfl⟩ := List.mem_map.mp hb
    by_cases hgen : e.1 = P.hashGenesisBlock
    · change P.previousBlockId e.1 = some c at hc
      rw [hgen, P.genesis_prev] at hc
      cases hc
    · obtain ⟨p, hp, e', he', heq⟩ := d.closed e he hgen
      obtain rfl := Option.some.inj (hp.symm.trans hc)
      exact List.mem_map.mpr ⟨e', he', heq⟩
  refine ⟨List.eq_nil_iff_forall_not_mem.mpr fun o ho => ?_, fun h hh => ?_⟩
  · have hlt := (ht.wf.loose o ho).1
    have hhash : s.arena.hash o = some s.arena.blocks[o] := List.getElem?_eq_getElem hlt
    obtain ⟨p, hp⟩ := hentry _ (ht.mem_of_mem_blocks (List.getElem_mem hlt))
    rw [ht.apart o ho _ hhash] at hp
    cases hp
  · obtain ⟨p, hp⟩ := hentry h ((hD h).mpr hh)
    obtain ⟨hattached, hhash⟩ := ht.wf.index h p hp
    obtain ⟨hheight, hwork⟩ := ht.height_work hnodup _ h p rfl hp
    refine ⟨p, hp, ht.tree p hattached, fun q hq hhashq => ?_, ht.pprev_eq hnodup hp, hheight,
      hwork⟩
    exact (List.getElem?_inj (List.getElem?_eq_some_iff.mp hhashq).1 hnodup).mp
      (hhashq.trans hhash.symm)

omit [DecidableEq H] in
/-- Two objects for one block are both in the tree. -/
theorem Arrived.nodup (d : Delivery P) (ha : Arrived P s (d.order.map (·.1)))
    (ht : Tracked P s D base) (hD : ∀ g ∈ D, g ∈ d.order.map (·.1)) : s.arena.blocks.Nodup := by
  rw [List.nodup_iff_getElem?_ne_getElem?]
  intro x y hxy hy heq
  have hin : ∀ z < s.arena.blocks.length, InTree s z := fun z hz =>
    ht.tree z ((ht.all z hz).resolve_right (by simp [ha.orphans]))
  have hhashx : s.arena.hash x = some s.arena.blocks[x] := List.getElem?_eq_getElem (by omega)
  have hhashy : s.arena.hash y = some s.arena.blocks[x] := heq.symm.trans hhashx
  have hmem : s.arena.blocks[x] ∈ s.arena.blocks := List.getElem_mem (by omega)
  obtain ⟨p, -, -, hunique, -⟩ := ha.entry _ (hD _ (ht.mem_of_mem_blocks hmem))
  have hxp := hunique x (hin x (by omega)) hhashx
  have hyp := hunique y (hin y hy) hhashy
  omega

end End

/-- **The order of arrival.**  All blocks end up in the index, with the right parents, heights and
work and one object each, if and only if genesis came from the database and no block was delivered
again before all of its ancestors had been. -/
theorem arrived_iff (P : HeaderTree H) (loaded : Bool) (d : Delivery P) :
    (∃ s, d.order.foldlM (deliver P) (start P loaded) = some s ∧
        Arrived P s (d.order.map (·.1))) ↔
      (loaded = true ∨ d.order = []) ∧ Unrepeated P loaded d.order := by
  by_cases hnil : d.order = []
  · have horphans : (start P loaded).orphanBlocks = [] := by
      cases loaded with
      | true => rfl
      | false => rfl
    simp only [hnil, or_true, true_and]
    refine iff_of_true ⟨start P loaded, rfl, horphans, by simp⟩ ?_
    intro before e after heq
    simp at heq
  have hstart : Tracked P (start P loaded) (if loaded then [P.hashGenesisBlock] else [])
      (if loaded then P.proof P.hashGenesisBlock else 0) := by
    cases loaded with
    | true => exact tracked_loaded
    | false => exact tracked_initial
  have hblocks : (start P loaded).arena.blocks.Nodup := by
    cases loaded with
    | true => simp [start, genesisArena]
    | false => simp [start, initial, Arena.empty]
  obtain ⟨s, D, hrun, ht, hD, hnodup⟩ := hstart.run d.order _ _ (by
    rintro g (hg | hg) hroot
    · cases loaded with
      | true => simpa using hg
      | false => simp at hg
    · exact d.roots hg hroot)
  rw [← unrepeated_iff, and_iff_right hblocks] at hnodup
  have hD' : ∀ g, g ∈ D ↔ g ∈ d.order.map (·.1) := by
    intro g
    rw [hD g]
    refine or_iff_left_of_imp fun hg => ?_
    cases loaded with
    | true =>
      obtain rfl : g = P.hashGenesisBlock := by simpa using hg
      exact d.genesis_mem hnil
    | false => simp at hg
  simp only [hnil, or_false]
  constructor
  · rintro ⟨s', hrun', ha⟩
    obtain rfl := Option.some.inj (hrun.symm.trans hrun')
    refine ⟨?_, hnodup.mp (ha.nodup d ht fun g hg => (hD' g).mp hg)⟩
    -- without the database the work of genesis is missing
    by_contra hl
    obtain rfl : loaded = false := by simpa using hl
    obtain ⟨p, hp, -, -, hprev, -, hwork⟩ := ha.entry _ (d.genesis_mem hnil)
    rw [P.genesis_prev, Option.bind_none] at hprev
    obtain ⟨-, hbase⟩ := ht.root p (ht.wf.index _ p hp).1 hprev
    have hpos := getBlockProof_pos (P.validBits P.hashGenesisBlock)
    rw [hbase, HeaderTree.chainProof_of_root P.genesis_prev] at hwork
    have hzero : getBlockProof (P.bits P.hashGenesisBlock) = 0 := hwork.symm
    omega
  · rintro ⟨rfl, hun⟩
    exact ⟨s, hrun, ht.arrived d hD' (hnodup.mpr hun)⟩

local instance neZero_threeBlocks : NeZero 3 := ⟨by decide⟩

/-- A chain of three blocks. -/
def threeBlocks : HeaderTree (Fin 3) where
  hashGenesisBlock := 0
  previousBlockId := ![none, some 0, some 1]
  bits := fun _ => 0x207fffff
  height := ![0, 1, 2]
  height_root := by decide
  height_child := by decide
  genesis_prev := rfl
  validBits := by decide

/-- The last block comes twice before its parent. -/
def parkedTwice : Delivery threeBlocks where
  order := [(2, false), (2, false), (1, false), (0, false)]
  closed := by decide

/-- It is in the tree of headers twice. -/
theorem not_arrived_parkedTwice :
    ¬ ∃ s, parkedTwice.order.foldlM (deliver threeBlocks) (start threeBlocks true) = some s ∧
      Arrived threeBlocks s (parkedTwice.order.map (·.1)) := by
  rintro ⟨s, hs, ha⟩
  have hend : (parkedTwice.order.foldlM (deliver threeBlocks) (start threeBlocks true)).map
      (fun s => (s.arena.blocks, s.db.headerChainTips)) = some ([0, 2, 2, 1], [1, 2]) := by
    decide +kernel
  rw [hs, Option.map_some] at hend
  obtain ⟨hblocks, htips⟩ := Prod.mk.inj (Option.some.inj hend)
  have htree : ∀ q ∈ [1, 2], InTree s q := fun q hq => ⟨q, by rw [htips]; exact hq, Forest.Le.refl q⟩
  obtain ⟨p, -, -, hunique, -⟩ := ha.entry 2 (by decide)
  have h₁ := hunique 1 (htree 1 (by simp)) (by simp [Arena.hash, hblocks])
  have h₂ := hunique 2 (htree 2 (by simp)) (by simp [Arena.hash, hblocks])
  omega

end Validation
