/-
# Climbing in a forest

A walk starts at a node and is offered the nodes of a list, one after the other.  It moves
to a node that is offered if that node is at or above the place where the walk is, and it
stays where it is otherwise.  It never goes back, and at a fork the node that is offered
first decides for a branch.

`foldl_settle_eq_iff` says where the walk ends without walking: at a node above the start
that no node of the list is strictly above, and to which every first choice on the way leads.
-/
import Hub.Forest
import Mathlib.Data.List.Induction

namespace Forest

variable {ι : Type*} [DecidableEq ι] (F : Forest ι)

/-- One step of the walk, which is at `t` when `x` is offered. -/
def settle (t x : ι) : ι := if F.Le t x then x else t

/-- `a` is an ancestor of `b`, and not `b` itself. -/
def Lt (a b : ι) : Prop := F.Le a b ∧ a ≠ b

instance (a b : ι) : Decidable (F.Lt a b) := inferInstanceAs (Decidable (F.Le a b ∧ a ≠ b))

variable {F} {a b m s t x : ι}

theorem le_settle (t x : ι) : F.Le t (F.settle t x) := by
  unfold settle
  split
  · assumption
  · exact Le.refl t

theorem le_foldl_settle (l : List ι) (t : ι) : F.Le t (l.foldl F.settle t) := by
  induction l generalizing t with
  | nil => exact Le.refl t
  | cons x l ih => exact (le_settle t x).trans (ih _)

/-- The walk ends where it started, or at a node that was offered. -/
theorem foldl_settle_mem (l : List ι) (t : ι) :
    l.foldl F.settle t = t ∨ l.foldl F.settle t ∈ l := by
  induction l generalizing t with
  | nil => exact .inl rfl
  | cons x l ih =>
    rw [List.foldl_cons]
    rcases ih (F.settle t x) with h | h
    · rw [h]
      unfold settle
      split
      · exact .inr List.mem_cons_self
      · exact .inl rfl
    · exact .inr (List.mem_cons_of_mem x h)

/-- No node that was offered is strictly above the end. -/
theorem not_lt_of_mem_foldl_settle : ∀ (l : List ι) (t : ι), ∀ x ∈ l,
    ¬ F.Lt (l.foldl F.settle t) x := by
  intro l
  induction l with
  | nil =>
    intro t x hx
    cases hx
  | cons y l ih =>
    intro t x hx hlt
    rcases List.mem_cons.mp hx with rfl | hx
    · -- the walk went through `x` when `x` was offered
      have hle : F.Le t x := (le_foldl_settle (x :: l) t).trans hlt.1
      have hthrough : F.settle t x = x := if_pos hle
      have hup := le_foldl_settle (F := F) l (F.settle t x)
      rw [hthrough] at hup
      rw [List.foldl_cons, hthrough] at hlt
      exact hlt.2 (hlt.1.antisymm hup)
    · exact ih _ x hx hlt

/-- What the walk chooses first above a node that it passes leads to the end. -/
theorem le_foldl_settle_of_find? {l : List ι} (hs : F.Le a s) (hm : F.Le s (l.foldl F.settle a))
    (hx : l.find? (fun y => F.Lt s y) = some x) : F.Le x (l.foldl F.settle a) := by
  obtain ⟨hsx, l₁, l₂, rfl, hnot⟩ := List.find?_eq_some_iff_append.mp hx
  have hsx' : F.Lt s x := by simpa using hsx
  rw [List.foldl_append, List.foldl_cons] at hm ⊢
  -- when `x` is offered, the walk has not left `s` behind
  have hle : F.Le (l₁.foldl F.settle a) s := by
    have hend : F.Le (l₁.foldl F.settle a)
        (l₂.foldl F.settle (F.settle (l₁.foldl F.settle a) x)) :=
      (le_settle _ x).trans (le_foldl_settle l₂ _)
    rcases hend.comparable hm with h | h
    · exact h
    · by_cases heq : s = l₁.foldl F.settle a
      · rw [← heq]
        exact Le.refl s
      · rcases foldl_settle_mem (F := F) l₁ a with hstart | hmem
        · rw [hstart]
          exact hs
        · have := hnot _ hmem
          simp [show F.Lt s (l₁.foldl F.settle a) from ⟨h, heq⟩] at this
  have hthrough : F.settle (l₁.foldl F.settle a) x = x := if_pos (hle.trans hsx'.1)
  rw [hthrough]
  exact le_foldl_settle l₂ x

/-- If every first choice leads to `m`, then the walk stays below `m`. -/
theorem foldl_settle_le (hm : F.Le a m) : ∀ (l₁ l₂ : List ι),
    (∀ x ∈ l₁ ++ l₂, ¬ F.Lt m x) →
    (∀ s, F.Le a s → F.Lt s m → ∀ x, (l₁ ++ l₂).find? (fun y => F.Lt s y) = some x → F.Le x m) →
    F.Le (l₁.foldl F.settle a) m := by
  intro l₁
  induction l₁ using List.reverseRecOn with
  | nil =>
    intro l₂ _ _
    exact hm
  | append_singleton l₁ x ih =>
    intro l₂ hleaf hfirst
    rw [List.append_assoc, List.singleton_append] at hleaf hfirst
    have hle := ih (x :: l₂) hleaf hfirst
    rw [List.foldl_append, List.foldl_cons, List.foldl_nil]
    by_cases hux : F.Le (l₁.foldl F.settle a) x
    · rw [show F.settle (l₁.foldl F.settle a) x = x from if_pos hux]
      by_cases hum : l₁.foldl F.settle a = m
      · -- at `m` there is nowhere to go
        have hnot := hleaf x (by simp)
        by_cases hxm : m = x
        · rw [← hxm]
          exact Le.refl m
        · rw [hum] at hux
          exact absurd ⟨hux, hxm⟩ hnot
      · by_cases hxu : l₁.foldl F.settle a = x
        · rw [← hxu]
          exact hle
        · refine hfirst (l₁.foldl F.settle a) (le_foldl_settle l₁ a) ⟨hle, hum⟩ x ?_
          rw [List.find?_eq_some_iff_append]
          refine ⟨by simpa using ⟨hux, hxu⟩, l₁, l₂, rfl, fun y hy => ?_⟩
          simpa using not_lt_of_mem_foldl_settle l₁ a y hy
    · rw [show F.settle (l₁.foldl F.settle a) x = l₁.foldl F.settle a from if_neg hux]
      exact hle

/-- **Where the walk ends.** -/
theorem foldl_settle_eq_iff {l : List ι} : l.foldl F.settle a = m ↔
    F.Le a m ∧ (m = a ∨ m ∈ l) ∧ (∀ x ∈ l, ¬ F.Lt m x) ∧
      ∀ s, F.Le a s → F.Lt s m → ∀ x, l.find? (fun y => F.Lt s y) = some x → F.Le x m := by
  constructor
  · rintro rfl
    exact ⟨le_foldl_settle l a, foldl_settle_mem l a, not_lt_of_mem_foldl_settle l a,
      fun s hs hsm x hx => le_foldl_settle_of_find? hs hsm.1 hx⟩
  · rintro ⟨ham, hmem, hleaf, hfirst⟩
    have hle := foldl_settle_le ham l [] (by simpa using hleaf) (by simpa using hfirst)
    by_contra hne
    rcases hmem with rfl | hmem
    · exact hne (hle.antisymm (le_foldl_settle l m))
    · exact not_lt_of_mem_foldl_settle l a m hmem ⟨hle, hne⟩

end Forest
