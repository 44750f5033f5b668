/-
# Multimaps

A map that may hold several elements under one key is the list of its pairs in the order of the keys; a new
pair goes behind the pairs of the same key.

* `perm_insert`, `sorted_insert` : a pair is added, and the order stays;
* `eraseIn_of_mem` : a pair that is there is found in the range of its key, and taken out.
-/
import Mathlib.Data.List.Basic
import Mathlib.Data.List.Pairwise
import Mathlib.Data.List.TakeWhile
import Mathlib.Order.Lattice
import Mathlib.Tactic.Common

namespace Multimap

variable {V α : Type*} [LinearOrder V]

/-- The keys do not decrease. -/
def Sorted (l : List (V × α)) : Prop := l.Pairwise fun e e' => e.1 ≤ e'.1

/-- A new pair, behind those of the same key. -/
def insert (v : V) (a : α) : List (V × α) → List (V × α)
  | [] => [(v, a)]
  | e :: l => if v < e.1 then (v, a) :: e :: l else e :: insert v a l

/-- The first pair, in the range of the key `v`, whose element meets `p` is taken out; nothing is
returned when there is none. -/
def eraseIn (p : α → Bool) (v : V) (l : List (V × α)) : Option (List (V × α)) :=
  let first := l.dropWhile fun e => e.1 < v
  let range := first.takeWhile fun e => e.1 ≤ v
  if range.any fun e => p e.2 then
    some ((l.takeWhile fun e => e.1 < v) ++ range.eraseP (fun e => p e.2) ++
      first.dropWhile fun e => e.1 ≤ v)
  else none

variable {v : V} {a : α} {l : List (V × α)}

theorem perm_insert (v : V) (a : α) (l : List (V × α)) : (insert v a l).Perm ((v, a) :: l) := by
  induction l with
  | nil => exact List.Perm.refl _
  | cons e l ih =>
    rw [insert]
    split_ifs
    · exact List.Perm.refl _
    · exact (ih.cons e).trans (List.Perm.swap _ _ l)

theorem sorted_insert (h : Sorted l) : Sorted (insert v a l) := by
  induction l with
  | nil => exact List.pairwise_singleton _ _
  | cons e l ih =>
    obtain ⟨hhead, htail⟩ := List.pairwise_cons.mp h
    rw [insert]
    split_ifs with hlt
    · refine List.pairwise_cons.mpr ⟨?_, h⟩
      intro e' he'
      rcases List.mem_cons.mp he' with rfl | he'
      · exact le_of_lt hlt
      · exact le_trans (le_of_lt hlt) (hhead e' he')
    · refine List.pairwise_cons.mpr ⟨?_, ih htail⟩
      intro e' he'
      rcases List.mem_cons.mp ((perm_insert v a l).mem_iff.mp he') with rfl | he'
      · exact not_lt.mp hlt
      · exact hhead e' he'

/-- The first pair has the lowest key. -/
theorem Sorted.head_le {e : V × α} (h : Sorted (e :: l)) : ∀ e' ∈ e :: l, e.1 ≤ e'.1 := by
  intro e' he'
  rcases List.mem_cons.mp he' with rfl | he'
  · exact le_refl _
  · exact (List.pairwise_cons.mp h).1 e' he'

theorem Sorted.tail {e : V × α} (h : Sorted (e :: l)) : Sorted l := (List.pairwise_cons.mp h).2

/-- A list in order is what lies before the range of a key, the range, and what lies behind it. -/
theorem split_eq (v : V) (l : List (V × α)) :
    (l.takeWhile fun e => e.1 < v) ++
      (((l.dropWhile fun e => e.1 < v).takeWhile fun e => e.1 ≤ v) ++
        (l.dropWhile fun e => e.1 < v).dropWhile fun e => e.1 ≤ v) = l := by
  rw [List.takeWhile_append_dropWhile, List.takeWhile_append_dropWhile]

/-- Behind the pairs with a lower key, no key is lower. -/
theorem le_of_mem_dropWhile (h : Sorted l) {e : V × α} (he : e ∈ l.dropWhile fun e => e.1 < v) :
    v ≤ e.1 := by
  induction l with
  | nil => cases he
  | cons d l ih =>
    rw [List.dropWhile_cons] at he
    split_ifs at he with hlow
    · exact ih h.tail he
    · exact le_trans (not_lt.mp fun hlt => hlow (decide_eq_true hlt)) (h.head_le e he)

/-- In a list in order, the pairs of a key are in its range. -/
theorem mem_range_of_mem (h : Sorted l) (hmem : (v, a) ∈ l) :
    (v, a) ∈ (l.dropWhile fun e => e.1 < v).takeWhile fun e => e.1 ≤ v := by
  have hfirst : (v, a) ∈ l.dropWhile fun e => e.1 < v := by
    rw [← List.takeWhile_append_dropWhile (p := fun e : V × α => decide (e.1 < v)) (l := l)] at hmem
    rcases List.mem_append.mp hmem with hbefore | hmem
    · have hlt := List.mem_takeWhile_imp hbefore
      exact absurd (of_decide_eq_true hlt) (lt_irrefl v)
    · exact hmem
  have hsorted : Sorted (l.dropWhile fun e => e.1 < v) := h.sublist (List.dropWhile_sublist _)
  generalize (l.dropWhile fun e => e.1 < v) = first at hfirst hsorted
  induction first with
  | nil => cases hfirst
  | cons e first ih =>
    have hle : e.1 ≤ v := hsorted.head_le _ hfirst
    rw [List.takeWhile_cons, if_pos (decide_eq_true hle)]
    rcases List.mem_cons.mp hfirst with heq | hfirst
    · rw [heq]
      exact List.mem_cons_self
    · exact List.mem_cons_of_mem _ (ih hfirst hsorted.tail)

/-- The pairs in the range of a key have this key. -/
theorem fst_eq_of_mem_range (h : Sorted l) {e : V × α}
    (he : e ∈ (l.dropWhile fun e => e.1 < v).takeWhile fun e => e.1 ≤ v) : e.1 = v := by
  have hle := List.mem_takeWhile_imp he
  exact le_antisymm (of_decide_eq_true hle)
    (le_of_mem_dropWhile h ((List.takeWhile_prefix _).subset he))

/-- **A pair that is there** is found and taken out, and the order stays. -/
theorem eraseIn_of_mem {p : α → Bool} (h : Sorted l) (hmem : (v, a) ∈ l) (hp : p a = true) :
    ∃ l' a', eraseIn p v l = some l' ∧ p a' = true ∧ l.Perm ((v, a') :: l') ∧ Sorted l' := by
  have hrange := mem_range_of_mem h hmem
  have hkeys := fun e he => fst_eq_of_mem_range (v := v) (e := e) h he
  have hsplit := split_eq v l
  rw [eraseIn]
  generalize (l.takeWhile fun e => e.1 < v) = before at hsplit ⊢
  generalize ((l.dropWhile fun e => e.1 < v).takeWhile fun e => e.1 ≤ v) = range at hrange hkeys hsplit ⊢
  generalize ((l.dropWhile fun e => e.1 < v).dropWhile fun e => e.1 ≤ v) = behind at hsplit ⊢
  obtain ⟨e, l₁, l₂, -, hpe, hcut, herase⟩ :=
    List.exists_of_eraseP (p := fun e : V × α => p e.2) hrange hp
  have hkey : e.1 = v := hkeys e (by rw [hcut]; simp)
  rw [if_pos (List.any_eq_true.mpr ⟨_, hrange, hp⟩), herase]
  refine ⟨before ++ (l₁ ++ l₂) ++ behind, e.2, rfl, hpe, ?_, ?_⟩
  · rw [← hsplit, hcut, ← hkey, List.append_assoc before (l₁ ++ l₂) behind]
    have hmiddle : (l₁ ++ e :: l₂).Perm (e :: (l₁ ++ l₂)) := List.perm_middle
    exact ((hmiddle.append_right behind).append_left before).trans List.perm_middle
  · have hsub : (before ++ (l₁ ++ l₂) ++ behind).Sublist l := by
      rw [← hsplit, hcut, List.append_assoc]
      apply List.Sublist.append_left
      apply List.Sublist.append_right
      exact List.Sublist.append_left (List.sublist_cons_self e l₂) l₁
    exact h.sublist hsub

end Multimap
