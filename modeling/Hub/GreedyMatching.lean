/-
# Greedy matching

Two lists and a test for pairs.  `greedy` walks along both lists and pairs the first element that is
left with the first element of the other list that passes the test; it gives up as soon as fewer
elements are left on the other side.  It finds a matching that keeps the order whenever there is one
(`greedy_iff`), and the direction of the walk does not matter (`sublistForall₂_reverse`).
-/
import Mathlib.Data.List.Forall2
import Mathlib.Data.List.NodupEquivFin

open List

namespace GreedyMatching

variable {α β : Type*}

/-- Match all of the first list, in order. -/
def greedy (ok : α → β → Bool) : List α → List β → Bool
  | [], _ => true
  | _ :: _, [] => false
  | a :: as, b :: bs =>
    if (if ok a b then as else a :: as).length > bs.length then false
    else greedy ok (if ok a b then as else a :: as) bs

theorem length_le_of_sublistForall₂ {R : α → β → Prop} {l₁ : List α} {l₂ : List β}
    (h : SublistForall₂ R l₁ l₂) : l₁.length ≤ l₂.length := by
  obtain ⟨l, hl, hsub⟩ := sublistForall₂_iff.mp h
  rw [hl.length_eq]
  exact hsub.length_le

/-- The first element may be left out together with its partner. -/
theorem sublistForall₂_of_cons_left {R : α → β → Prop} {a : α} {l₁ : List α} {l₂ : List β}
    (h : SublistForall₂ R (a :: l₁) l₂) : SublistForall₂ R l₁ l₂ := by
  induction l₂ with
  | nil => cases h
  | cons b l₂ ih =>
    cases h with
    | cons _ h => exact .cons_right h
    | cons_right h => exact .cons_right (ih h)

/-- **Exchange.**  When the first elements pass the test, they may be paired. -/
theorem sublistForall₂_cons_iff_of_rel {R : α → β → Prop} {a : α} {b : β} {l₁ : List α} {l₂ : List β}
    (h : R a b) : SublistForall₂ R (a :: l₁) (b :: l₂) ↔ SublistForall₂ R l₁ l₂ := by
  constructor
  · intro hsub
    cases hsub with
    | cons _ hsub => exact hsub
    | cons_right hsub => exact sublistForall₂_of_cons_left hsub
  · exact .cons h

theorem sublistForall₂_cons_iff_of_not_rel {R : α → β → Prop} {a : α} {b : β} {l₁ : List α}
    {l₂ : List β} (h : ¬ R a b) :
    SublistForall₂ R (a :: l₁) (b :: l₂) ↔ SublistForall₂ R (a :: l₁) l₂ := by
  constructor
  · intro hsub
    cases hsub with
    | cons hab _ => exact absurd hab h
    | cons_right hsub => exact hsub
  · exact .cons_right

/-- **The greedy walk finds a matching** if there is one. -/
theorem greedy_iff_sublistForall₂ (ok : α → β → Bool) (as : List α) (bs : List β) :
    greedy ok as bs = true ↔ SublistForall₂ (fun a b => ok a b = true) as bs := by
  induction bs generalizing as with
  | nil =>
    cases as with
    | nil => exact ⟨fun _ => .nil, fun _ => rfl⟩
    | cons a as =>
      constructor
      · intro h
        cases h
      · intro h
        cases h
  | cons b bs ih =>
    cases as with
    | nil => exact ⟨fun _ => .nil, fun _ => rfl⟩
    | cons a as =>
      have hstep : SublistForall₂ (fun a b => ok a b = true) (a :: as) (b :: bs) ↔
          SublistForall₂ (fun a b => ok a b = true) (if ok a b then as else a :: as) bs := by
        split_ifs with hok
        · exact sublistForall₂_cons_iff_of_rel hok
        · exact sublistForall₂_cons_iff_of_not_rel hok
      rw [greedy, hstep]
      by_cases hlen : (if ok a b then as else a :: as).length > bs.length
      · rw [if_pos hlen]
        constructor
        · intro h
          cases h
        · intro h
          have hle := length_le_of_sublistForall₂ h
          omega
      · rw [if_neg hlen]
        exact ih _

/-- A matching that keeps the order is a strictly increasing map. -/
theorem sublistForall₂_iff_strictMono {R : α → β → Prop} {l₁ : List α} {l₂ : List β} :
    SublistForall₂ R l₁ l₂ ↔ ∃ f : Fin l₁.length → Fin l₂.length, StrictMono f ∧
      ∀ i, R (l₁.get i) (l₂.get (f i)) := by
  rw [sublistForall₂_iff]
  constructor
  · rintro ⟨l, hl, hsub⟩
    obtain ⟨g, hg⟩ := sublist_iff_exists_fin_orderEmbedding_get_eq.mp hsub
    obtain ⟨hlen, hget⟩ := forall₂_iff_get.mp hl
    refine ⟨fun i => g (i.cast hlen), fun i j hij => g.strictMono (by simpa using hij), fun i => ?_⟩
    rw [← hg]
    exact hget i.1 i.2 (by omega)
  · rintro ⟨f, hmono, hrel⟩
    refine ⟨ofFn fun i => l₂.get (f i), ?_, ?_⟩
    · rw [forall₂_iff_get]
      refine ⟨by simp, fun i h₁ h₂ => ?_⟩
      simpa using hrel ⟨i, h₁⟩
    · rw [sublist_iff_exists_fin_orderEmbedding_get_eq]
      refine ⟨OrderEmbedding.ofStrictMono (fun i => f (i.cast (by simp)))
        (fun i j hij => hmono (by simpa using hij)), fun i => ?_⟩
      rw [get_ofFn]
      rfl

theorem sublistForall₂_reverse {R : α → β → Prop} {l₁ : List α} {l₂ : List β} :
    SublistForall₂ R l₁.reverse l₂.reverse ↔ SublistForall₂ R l₁ l₂ := by
  have hmp : ∀ {l₁ : List α} {l₂ : List β}, SublistForall₂ R l₁ l₂ →
      SublistForall₂ R l₁.reverse l₂.reverse := by
    intro l₁ l₂ h
    obtain ⟨l, hl, hsub⟩ := sublistForall₂_iff.mp h
    exact sublistForall₂_iff.mpr ⟨l.reverse, forall₂_reverse_iff.mpr hl, hsub.reverse⟩
  constructor
  · intro h
    have hback := hmp h
    rwa [reverse_reverse, reverse_reverse] at hback
  · exact hmp

/-- **Greedy from the end** finds a strictly increasing map that passes all tests, if there is
one. -/
theorem greedy_iff (ok : α → β → Bool) (as : List α) (bs : List β) :
    greedy ok as.reverse bs.reverse = true ↔ ∃ f : Fin as.length → Fin bs.length, StrictMono f ∧
      ∀ i, ok (as.get i) (bs.get (f i)) = true := by
  rw [greedy_iff_sublistForall₂, sublistForall₂_reverse, sublistForall₂_iff_strictMono]

end GreedyMatching
