/-
# Forests of parent pointers

A forest is given by a parent pointer and a height that grows by one from parent to
child.  `Le a b` says that `a` is `b` or an ancestor of `b`.  It is a partial order in
which the ancestors of a node form a chain, and it is decided by walking up from `b`
to the height of `a`.

`IsFrontier K L` says that the list `L` holds the maximal nodes of a set `K`, each
once, and that they cover `K`.  A set has at most one frontier up to order
(`IsFrontier.perm`).
-/
import Mathlib

/-- Parent pointers with heights. -/
structure Forest (ι : Type*) where
  parent : ι → Option ι
  height : ι → ℕ
  height_root : ∀ b, parent b = none → height b = 0
  height_child : ∀ b p, parent b = some p → height b = height p + 1

namespace Forest

open scoped List

variable {ι : Type*}

/-- `n` steps up along `parent`. -/
def up (parent : ι → Option ι) : ℕ → ι → Option ι
  | 0, b => some b
  | n + 1, b => (parent b).bind (up parent n)

variable (F : Forest ι)

/-- The ancestor of `b` at height `k`, if `b` is that high. -/
def ancestor? (k : ℕ) (b : ι) : Option ι :=
  if k ≤ F.height b then up F.parent (F.height b - k) b else none

/-- `a` is `b` or an ancestor of `b`. -/
def Le (a b : ι) : Prop := ∃ n, up F.parent n b = some a

variable {F} {a b c p : ι}

/-! ## Walking up -/

theorem up_add (parent : ι → Option ι) (m n : ℕ) (b : ι) :
    up parent (m + n) b = (up parent m b).bind (up parent n) := by
  induction m generalizing b with
  | zero => simp [up]
  | succ m ih =>
    rw [show m + 1 + n = (m + n) + 1 from by omega, up, up]
    cases parent b with
    | none => rfl
    | some p => exact ih p

theorem height_up {n : ℕ} (h : up F.parent n b = some a) : F.height b = F.height a + n := by
  induction n generalizing b with
  | zero =>
    simp only [up, Option.some.injEq] at h
    rw [h]
    rfl
  | succ n ih =>
    rw [up] at h
    cases hp : F.parent b with
    | none => simp [hp] at h
    | some p =>
      rw [hp] at h
      have h1 := F.height_child b p hp
      have h2 := ih h
      omega

/-- Walking up at most the height of `b` arrives somewhere. -/
theorem up_isSome {n : ℕ} (h : n ≤ F.height b) : ∃ a, up F.parent n b = some a := by
  induction n generalizing b with
  | zero => exact ⟨b, rfl⟩
  | succ n ih =>
    cases hp : F.parent b with
    | none =>
      have := F.height_root b hp
      omega
    | some p =>
      have h1 := F.height_child b p hp
      obtain ⟨a, ha⟩ := ih (b := p) (by omega)
      exact ⟨a, by rw [up, hp]; exact ha⟩

/-! ## The order -/

theorem Le.refl (b : ι) : F.Le b b := ⟨0, rfl⟩

theorem Le.trans (hab : F.Le a b) (hbc : F.Le b c) : F.Le a c := by
  obtain ⟨m, hm⟩ := hab
  obtain ⟨n, hn⟩ := hbc
  exact ⟨n + m, by rw [up_add, hn]; exact hm⟩

theorem Le.height_le (h : F.Le a b) : F.height a ≤ F.height b := by
  obtain ⟨n, hn⟩ := h
  have := height_up hn
  omega

/-- Nodes of one chain are told apart by their heights. -/
theorem Le.eq_of_height (h : F.Le a b) (hh : F.height b ≤ F.height a) : a = b := by
  obtain ⟨n, hn⟩ := h
  have hz := height_up hn
  obtain rfl : n = 0 := by omega
  exact (Option.some.inj hn).symm

theorem Le.antisymm (hab : F.Le a b) (hba : F.Le b a) : a = b :=
  hab.eq_of_height hba.height_le

/-- The ancestors of a node form a chain. -/
theorem Le.total (hac : F.Le a c) (hbc : F.Le b c) (h : F.height a ≤ F.height b) : F.Le a b := by
  obtain ⟨m, hm⟩ := hac
  obtain ⟨n, hn⟩ := hbc
  have h1 := height_up hm
  have h2 := height_up hn
  refine ⟨m - n, ?_⟩
  rw [show m = n + (m - n) from by omega, up_add, hn] at hm
  exact hm

theorem Le.comparable (hac : F.Le a c) (hbc : F.Le b c) : F.Le a b ∨ F.Le b a := by
  rcases Nat.le_total (F.height a) (F.height b) with h | h
  · exact .inl (hac.total hbc h)
  · exact .inr (hbc.total hac h)

theorem Le.of_parent (hp : F.parent b = some p) : F.Le p b := ⟨1, by simp [up, hp]⟩

/-- Below a child there is the child and what is below its parent. -/
theorem le_iff_of_parent (hp : F.parent b = some p) : F.Le a b ↔ a = b ∨ F.Le a p := by
  constructor
  · rintro ⟨n, hn⟩
    cases n with
    | zero => exact .inl (Option.some.inj hn).symm
    | succ n =>
      rw [up, hp] at hn
      exact .inr ⟨n, hn⟩
  · rintro (rfl | h)
    · exact Le.refl a
    · exact h.trans (Le.of_parent hp)

/-- Below a root there is only the root. -/
theorem eq_of_le_root (hp : F.parent b = none) (h : F.Le a b) : a = b :=
  h.eq_of_height (by rw [F.height_root b hp]; omega)

/-- A node strictly above another is at or above one of its children: it does not lie
at or below the parent. -/
theorem not_le_parent (hp : F.parent b = some p) : ¬ F.Le b p := by
  intro h
  have h1 := h.height_le
  have h2 := F.height_child b p hp
  omega

theorem ancestor?_eq_some_iff {k : ℕ} :
    F.ancestor? k b = some a ↔ F.Le a b ∧ F.height a = k := by
  unfold ancestor?
  constructor
  · intro h
    by_cases hk : k ≤ F.height b
    · rw [if_pos hk] at h
      have := height_up h
      exact ⟨⟨_, h⟩, by omega⟩
    · rw [if_neg hk] at h
      cases h
  · rintro ⟨⟨n, hn⟩, rfl⟩
    have := height_up hn
    rw [if_pos (by omega), show F.height b - F.height a = n from by omega]
    exact hn

/-- Walking up to the height of `a` decides whether `a` is an ancestor. -/
theorem ancestor?_height_iff : F.ancestor? (F.height a) b = some a ↔ F.Le a b := by
  rw [ancestor?_eq_some_iff]
  exact and_iff_left rfl

instance [DecidableEq ι] (a b : ι) : Decidable (F.Le a b) :=
  decidable_of_iff _ ancestor?_height_iff

theorem ancestor?_isSome {k : ℕ} (h : k ≤ F.height b) : ∃ a, F.ancestor? k b = some a := by
  rw [ancestor?, if_pos h]
  exact up_isSome (by omega)

theorem ancestor?_self (b : ι) : F.ancestor? (F.height b) b = some b :=
  ancestor?_height_iff.mpr (Le.refl b)

/-- The ancestors of `b` are also those of its descendants. -/
theorem Le.ancestor?_eq {k : ℕ} (h : F.Le a b) (hk : k ≤ F.height a) :
    F.ancestor? k b = F.ancestor? k a := by
  obtain ⟨x, hx⟩ := ancestor?_isSome hk
  obtain ⟨hle, hheight⟩ := ancestor?_eq_some_iff.mp hx
  rw [hx]
  exact ancestor?_eq_some_iff.mpr ⟨hle.trans h, hheight⟩

/-- What goes over from a child to its parent holds of all ancestors. -/
theorem Le.induction {P : ι → Prop} (hstep : ∀ b p, F.parent b = some p → P b → P p)
    (h : F.Le a b) (hb : P b) : P a := by
  obtain ⟨n, hn⟩ := h
  induction n generalizing b with
  | zero =>
    obtain rfl : b = a := Option.some.inj hn
    exact hb
  | succ n ih =>
    obtain ⟨p, hp, hn⟩ := Option.bind_eq_some_iff.mp hn
    exact ih (hstep b p hp hb) hn

/-! ## Weights -/

variable (F) in
/-- The sum of a weight over a node and its ancestors. -/
def pathSum (w : ι → ℕ) (b : ι) : ℕ :=
  ((List.range (F.height b + 1)).map fun k => ((F.ancestor? k b).map w).getD 0).sum

theorem pathSum_of_parent {w : ι → ℕ} (hp : F.parent b = some p) :
    F.pathSum w b = F.pathSum w p + w b := by
  have hh := F.height_child b p hp
  have hle : F.Le p b := Le.of_parent hp
  have hbelow : ((List.range (F.height b)).map fun k => ((F.ancestor? k b).map w).getD 0)
      = (List.range (F.height b)).map fun k => ((F.ancestor? k p).map w).getD 0 := by
    apply List.map_congr_left
    intro k hk
    rw [List.mem_range] at hk
    rw [hle.ancestor?_eq (by omega)]
  rw [pathSum, List.range_succ, List.map_append, List.sum_append, List.map_singleton,
    List.sum_singleton, ancestor?_self, hbelow, hh]
  rfl

theorem pathSum_of_root {w : ι → ℕ} (hp : F.parent b = none) : F.pathSum w b = w b := by
  have hh := F.height_root b hp
  have hself := ancestor?_self (F := F) b
  rw [hh] at hself
  simp [pathSum, hh, hself]

/-- A weight that grows from parent to child is strictly monotone. -/
theorem Le.weight_le {w : ι → ℕ} (hw : ∀ b p, F.parent b = some p → w p < w b)
    (h : F.Le a b) : w a ≤ w b := by
  obtain ⟨n, hn⟩ := h
  induction n generalizing b with
  | zero =>
    obtain rfl : b = a := Option.some.inj hn
    exact Nat.le_refl _
  | succ n ih =>
    rw [up] at hn
    cases hp : F.parent b with
    | none => simp [hp] at hn
    | some p =>
      rw [hp] at hn
      have h1 := ih hn
      have h2 := hw b p hp
      omega

theorem Le.eq_of_weight {w : ι → ℕ} (hw : ∀ b p, F.parent b = some p → w p < w b)
    (h : F.Le a b) (hwt : w b ≤ w a) : a = b := by
  cases hp : F.parent b with
  | none => exact eq_of_le_root hp h
  | some p =>
    rcases (le_iff_of_parent hp).mp h with rfl | hle
    · rfl
    · have h1 := hle.weight_le hw
      have h2 := hw b p hp
      omega

/-! ## Frontiers -/

/-- `L` has no duplicates, and no element of it is an ancestor of another. -/
structure Incomparable (F : Forest ι) (L : List ι) : Prop where
  nodup : L.Nodup
  eq_of_le : ∀ {x y}, x ∈ L → y ∈ L → F.Le x y → x = y

instance [DecidableEq ι] (L : List ι) : Decidable (F.Incomparable L) :=
  decidable_of_iff (L.Nodup ∧ ∀ x ∈ L, ∀ y ∈ L, F.Le x y → x = y)
    ⟨fun ⟨h1, h2⟩ => ⟨h1, fun hx hy => h2 _ hx _ hy⟩,
      fun ⟨h1, h2⟩ => ⟨h1, fun _ hx _ hy => h2 hx hy⟩⟩

/-- Every node of `K` is at or below one in `L`. -/
def Covers (F : Forest ι) (K : ι → Prop) (L : List ι) : Prop := ∀ x, K x → ∃ t ∈ L, F.Le x t

/-- `L` lists the maximal nodes of `K`, and they cover it. -/
structure IsFrontier (F : Forest ι) (K : ι → Prop) (L : List ι) : Prop where
  incomparable : F.Incomparable L
  sub : ∀ x ∈ L, K x
  covers : F.Covers K L

theorem Incomparable.sublist {L L' : List ι} (h : F.Incomparable L) (hs : L'.Sublist L) :
    F.Incomparable L' where
  nodup := h.nodup.sublist hs
  eq_of_le := fun hx hy => h.eq_of_le (hs.subset hx) (hs.subset hy)

/-- One more element keeps an antichain exactly when it is incomparable to all. -/
theorem incomparable_append_singleton {L : List ι} (h : F.Incomparable L) :
    F.Incomparable (L ++ [a]) ↔ ∀ x ∈ L, ¬ F.Le x a ∧ ¬ F.Le a x := by
  constructor
  · intro ha x hx
    have hne : x ≠ a := by
      rintro rfl
      exact (List.nodup_append.mp ha.nodup).2.2 x hx x (by simp) rfl
    constructor
    · intro hle
      exact hne (ha.eq_of_le (by simp [hx]) (by simp) hle)
    · intro hle
      exact hne (ha.eq_of_le (by simp) (by simp [hx]) hle).symm
  · intro ha
    constructor
    · refine List.nodup_append.mpr ⟨h.nodup, by simp, ?_⟩
      rintro x hx y hy rfl
      obtain rfl : x = a := by simpa using hy
      exact (ha x hx).1 (Le.refl x)
    · intro x y hx hy hle
      rcases List.mem_append.mp hx with hxL | hxa
      · rcases List.mem_append.mp hy with hyL | hya
        · exact h.eq_of_le hxL hyL hle
        · obtain rfl : y = a := by simpa using hya
          exact absurd hle (ha x hxL).1
      · obtain rfl : x = a := by simpa using hxa
        rcases List.mem_append.mp hy with hyL | hya
        · exact absurd hle (ha y hyL).2
        · exact (by simpa using hya : y = x).symm

/-- The frontier consists of the maximal nodes. -/
theorem IsFrontier.mem_iff {K : ι → Prop} {L : List ι} (h : F.IsFrontier K L) :
    a ∈ L ↔ K a ∧ ∀ b, K b → F.Le a b → a = b := by
  constructor
  · intro ha
    refine ⟨h.sub a ha, fun b hb hab => ?_⟩
    obtain ⟨t, ht, hbt⟩ := h.covers b hb
    obtain rfl := h.incomparable.eq_of_le ha ht (hab.trans hbt)
    exact hab.antisymm hbt
  · rintro ⟨hK, hmax⟩
    obtain ⟨t, ht, hat⟩ := h.covers a hK
    obtain rfl := hmax t (h.sub t ht) hat
    exact ht

/-- **Frontiers are unique** up to their order. -/
theorem IsFrontier.perm {K : ι → Prop} {L L' : List ι} (h : F.IsFrontier K L)
    (h' : F.IsFrontier K L') : L ~ L' := by
  refine (List.perm_ext_iff_of_nodup h.incomparable.nodup h'.incomparable.nodup).mpr ?_
  intro a
  rw [h.mem_iff, h'.mem_iff]

end Forest
