/-
# The block index as it grows

`CBlockIndex` objects are made by `createBlockIndexFor` and hang loose, with `nHeight == -1`,
until their parent is known; then `pprev`, `nHeight`, `nChainWork` and `pskip` are set in one
go.  A pointer is the number of the object in the order in which the objects were made.

An `Arena` carries what makes this safe: only objects that were made are attached, and
parents and children are attached, so a loose object is nobody's parent and attaching it
changes nothing about the others (`grown_attach`).
-/
import Hub.SkipList
import Mathlib.Data.List.Nodup

namespace BlockIndex

variable {ι : Type} [DecidableEq ι] (T : BlockIndex ι)

/-- Walks that start elsewhere do not meet an entry that is nobody's parent. -/
theorem up_update {parent : ι → Option ι} {p : ι} (hleaf : ∀ x, parent x ≠ some p) (q : ι) :
    ∀ (n : ℕ) (x : ι), x ≠ p →
    Forest.up (Function.update parent p (some q)) n x = Forest.up parent n x := by
  intro n
  induction n with
  | zero =>
    intro x _
    rfl
  | succ n ih =>
    intro x hx
    rw [Forest.up, Forest.up, Function.update_of_ne hx]
    cases hpar : parent x with
    | none => rfl
    | some y =>
      have hy : y ≠ p := fun h => hleaf x (h ▸ hpar)
      exact ih y hy

/-- Set `pprev`, `nHeight` and `nChainWork` of an entry that nobody refers to. -/
def link (p q : ι) (work : ℕ) (hleaf : ∀ x, T.pprev x ≠ some p) (hne : q ≠ p) :
    BlockIndex ι where
  pprev := Function.update T.pprev p (some q)
  nHeight := Function.update T.nHeight p (T.nHeight q + 1)
  nChainWork := Function.update T.nChainWork p work
  pskip := Function.update T.pskip p none
  height_root := by
    intro x hx
    by_cases hxp : x = p
    · subst hxp
      rw [Function.update_self] at hx
      cases hx
    · rw [Function.update_of_ne hxp] at hx ⊢
      exact T.height_root x hx
  height_child := by
    intro x y hy
    by_cases hxp : x = p
    · subst hxp
      rw [Function.update_self] at hy ⊢
      obtain rfl := Option.some.inj hy
      rw [Function.update_of_ne hne]
    · rw [Function.update_of_ne hxp] at hy ⊢
      have hyp : y ≠ p := fun h => hleaf x (h ▸ hy)
      rw [Function.update_of_ne hyp]
      exact T.height_child x y hy
  skip := by
    intro x s hs
    by_cases hxp : x = p
    · subst hxp
      rw [Function.update_self] at hs
      cases hs
    · rw [Function.update_of_ne hxp] at hs ⊢
      rw [up_update hleaf q _ x hxp]
      exact T.skip x s hs

end BlockIndex

/-- The `CBlockIndex` objects: the block hash that each was made for, and those that are
attached, which is `nHeight != -1`. -/
structure Arena (H : Type) extends BlockIndex ℕ where
  blocks : List H
  attached : List ℕ
  made : ∀ p ∈ attached, p < blocks.length
  closed : ∀ p q, pprev p = some q → p ∈ attached ∧ q ∈ attached

namespace Arena

variable {H : Type}

/-- The ancestor order of the objects. -/
def Le (A : Arena H) (a b : ℕ) : Prop := A.toBlockIndex.forest.Le a b

instance (A : Arena H) (a b : ℕ) : Decidable (A.Le a b) :=
  inferInstanceAs (Decidable (A.toBlockIndex.forest.Le a b))

/-- No object. -/
def empty : Arena H where
  pprev := fun _ => none
  nHeight := fun _ => 0
  nChainWork := fun _ => 0
  pskip := fun _ => none
  height_root := by simp
  height_child := by simp
  skip := by simp
  blocks := []
  attached := []
  made := by simp
  closed := by simp

/-- `GetBlockHash()` of an object. -/
def hash (A : Arena H) (p : ℕ) : Option H := A.blocks[p]?

/-- `new CBlockIndex()`. -/
def alloc (A : Arena H) (h : H) : Arena H where
  toBlockIndex :=
    { A.toBlockIndex with nChainWork := Function.update A.nChainWork A.blocks.length 0 }
  blocks := A.blocks ++ [h]
  attached := A.attached
  made := by
    intro p hp
    have := A.made p hp
    rw [List.length_append]
    omega
  closed := A.closed

/-- The object becomes the root of a tree. -/
def root (A : Arena H) (p : ℕ) (hp : p < A.blocks.length) : Arena H where
  toBlockIndex := A.toBlockIndex
  blocks := A.blocks
  attached := p :: A.attached
  made := by
    intro x hx
    rcases List.mem_cons.mp hx with rfl | hx
    · exact hp
    · exact A.made x hx
  closed := by
    intro x y hxy
    obtain ⟨hx, hy⟩ := A.closed x y hxy
    exact ⟨List.mem_cons_of_mem p hx, List.mem_cons_of_mem p hy⟩

variable {A : Arena H} {a b p q x y : ℕ} {h : H} {work : ℕ}

theorem ne_of_attached (hp : p ∉ A.attached) (x : ℕ) : A.pprev x ≠ some p :=
  fun h => hp (A.closed x p h).2

/-- Attach a loose object `p` below which there is `q`: set `pprev`, `nHeight` and
`nChainWork`, then call `BuildSkip`. -/
def attach (A : Arena H) (p q work : ℕ) : Arena H :=
  if hpq : p < A.blocks.length ∧ p ∉ A.attached ∧ q ∈ A.attached then
    { toBlockIndex := (A.toBlockIndex.link p q work (ne_of_attached hpq.2.1)
        fun h => hpq.2.1 (h ▸ hpq.2.2)).buildSkip p
      blocks := A.blocks
      attached := p :: A.attached
      made := by
        intro x hx
        rcases List.mem_cons.mp hx with rfl | hx
        · exact hpq.1
        · exact A.made x hx
      closed := by
        intro x y hxy
        change Function.update A.pprev p (some q) x = some y at hxy
        by_cases hxp : x = p
        · subst hxp
          rw [Function.update_self] at hxy
          obtain rfl := Option.some.inj hxy
          exact ⟨List.mem_cons_self, List.mem_cons_of_mem _ hpq.2.2⟩
        · rw [Function.update_of_ne hxp] at hxy
          obtain ⟨hx, hy⟩ := A.closed x y hxy
          exact ⟨List.mem_cons_of_mem p hx, List.mem_cons_of_mem p hy⟩ }
  else A

@[simp] theorem blocks_attach : (A.attach p q work).blocks = A.blocks := by
  unfold attach
  split
  · rfl
  · rfl

@[simp] theorem hash_attach : (A.attach p q work).hash = A.hash := by
  funext x
  rw [hash, hash, blocks_attach]

/-! ## Growing -/

/-- What is attached stays as it is. -/
structure Grown (A B : Arena H) : Prop where
  hash : ∀ p h, A.hash p = some h → B.hash p = some h
  attached : ∀ p ∈ A.attached, p ∈ B.attached
  pprev : ∀ p ∈ A.attached, B.pprev p = A.pprev p
  nHeight : ∀ p ∈ A.attached, B.nHeight p = A.nHeight p
  nChainWork : ∀ p ∈ A.attached, B.nChainWork p = A.nChainWork p

namespace Grown

variable {B C : Arena H}

protected theorem refl (A : Arena H) : Grown A A where
  hash := fun _ _ h => h
  attached := fun _ h => h
  pprev := fun _ _ => rfl
  nHeight := fun _ _ => rfl
  nChainWork := fun _ _ => rfl

protected theorem trans (hAB : Grown A B) (hBC : Grown B C) : Grown A C where
  hash := fun p h hp => hBC.hash p h (hAB.hash p h hp)
  attached := fun p hp => hBC.attached p (hAB.attached p hp)
  pprev := fun p hp => (hBC.pprev p (hAB.attached p hp)).trans (hAB.pprev p hp)
  nHeight := fun p hp => (hBC.nHeight p (hAB.attached p hp)).trans (hAB.nHeight p hp)
  nChainWork := fun p hp => (hBC.nChainWork p (hAB.attached p hp)).trans (hAB.nChainWork p hp)

/-- Attached objects have their walks. -/
theorem up_eq (hAB : Grown A B) : ∀ (n y : ℕ), y ∈ A.attached →
    Forest.up B.pprev n y = Forest.up A.pprev n y := by
  intro n
  induction n with
  | zero =>
    intro y _
    rfl
  | succ n ih =>
    intro y hy
    rw [Forest.up, Forest.up, hAB.pprev y hy]
    cases hp : A.pprev y with
    | none => rfl
    | some z => exact ih z (A.closed y z hp).2

theorem le_iff (hAB : Grown A B) (hy : y ∈ A.attached) : B.Le x y ↔ A.Le x y := by
  constructor
  · rintro ⟨n, hn⟩
    exact ⟨n, (hAB.up_eq n y hy).symm.trans hn⟩
  · rintro ⟨n, hn⟩
    exact ⟨n, (hAB.up_eq n y hy).trans hn⟩

theorem isPath (hAB : Grown A B) (hy : y ∈ A.attached) {c : CChain ℕ}
    (hc : c.IsPath A.toBlockIndex y) : c.IsPath B.toBlockIndex y := by
  rw [CChain.IsPath, hc, hAB.nHeight y hy]
  apply List.map_congr_left
  intro k _
  show (if k ≤ A.nHeight y then Forest.up A.pprev (A.nHeight y - k) y else none)
    = if k ≤ B.nHeight y then Forest.up B.pprev (B.nHeight y - k) y else none
  rw [hAB.nHeight y hy, hAB.up_eq _ y hy]

end Grown

theorem grown_alloc (A : Arena H) (h : H) : Grown A (A.alloc h) where
  hash := by
    intro p g hp
    have hlt : p < A.blocks.length := (List.getElem?_eq_some_iff.mp hp).1
    rw [hash, alloc, List.getElem?_append_left hlt]
    exact hp
  attached := fun _ hp => hp
  pprev := fun _ _ => rfl
  nHeight := fun _ _ => rfl
  nChainWork := fun p hp => Function.update_of_ne (Nat.ne_of_lt (A.made p hp)) _ _

theorem hash_alloc_self (A : Arena H) (h : H) : (A.alloc h).hash A.blocks.length = some h := by
  simp [hash, alloc]

theorem grown_root (A : Arena H) (p : ℕ) (hp : p < A.blocks.length) : Grown A (A.root p hp) where
  hash := fun _ _ h => h
  attached := fun _ hx => List.mem_cons_of_mem p hx
  pprev := fun _ _ => rfl
  nHeight := fun _ _ => rfl
  nChainWork := fun _ _ => rfl

section Attach

variable (hl : p < A.blocks.length) (hp : p ∉ A.attached) (hq : q ∈ A.attached)

include hl hp hq

theorem attached_attach : (A.attach p q work).attached = p :: A.attached := by
  rw [attach, dif_pos ⟨hl, hp, hq⟩]

theorem pprev_attach : (A.attach p q work).pprev = Function.update A.pprev p (some q) := by
  rw [attach, dif_pos ⟨hl, hp, hq⟩]
  rfl

theorem nHeight_attach :
    (A.attach p q work).nHeight = Function.update A.nHeight p (A.nHeight q + 1) := by
  rw [attach, dif_pos ⟨hl, hp, hq⟩]
  rfl

theorem nChainWork_attach :
    (A.attach p q work).nChainWork = Function.update A.nChainWork p work := by
  rw [attach, dif_pos ⟨hl, hp, hq⟩]
  rfl

theorem grown_attach : Grown A (A.attach p q work) where
  hash := by simp
  attached := fun x hx => by
    rw [attached_attach hl hp hq]
    exact List.mem_cons_of_mem p hx
  pprev := fun x hx => by
    rw [pprev_attach hl hp hq, Function.update_of_ne (ne_of_mem_of_not_mem hx hp)]
  nHeight := fun x hx => by
    rw [nHeight_attach hl hp hq, Function.update_of_ne (ne_of_mem_of_not_mem hx hp)]
  nChainWork := fun x hx => by
    rw [nChainWork_attach hl hp hq, Function.update_of_ne (ne_of_mem_of_not_mem hx hp)]

/-- The ancestors of an object that was attached. -/
theorem le_attach_iff : (A.attach p q work).Le x p ↔ x = p ∨ A.Le x q := by
  have hpar : (A.attach p q work).pprev p = some q := by
    rw [pprev_attach hl hp hq, Function.update_self]
  rw [Le, Forest.le_iff_of_parent (F := (A.attach p q work).toBlockIndex.forest) hpar]
  exact or_congr_right ((grown_attach hl hp hq).le_iff hq)

end Attach

end Arena
