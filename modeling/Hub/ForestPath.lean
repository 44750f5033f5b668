/-
# Paths in a forest

`path b lo hi` lists the nodes above the height `lo` and up to the height `hi` on the way from the
root to `b`, the lowest one first.  A path can be cut anywhere (`path_append`).
-/
import Hub.Forest
import Mathlib.Data.List.Range

namespace Forest

variable {ι : Type*} (F : Forest ι)

def path (b : ι) (lo hi : ℕ) : List ι :=
  (List.range' (lo + 1) (hi - lo)).filterMap fun k => F.ancestor? k b

variable {F} {a b : ι} {lo mid hi : ℕ}

theorem mem_path : a ∈ F.path b lo hi ↔ F.Le a b ∧ lo < F.height a ∧ F.height a ≤ hi := by
  rw [path, List.mem_filterMap]
  constructor
  · rintro ⟨k, hk, ha⟩
    obtain ⟨hle, rfl⟩ := ancestor?_eq_some_iff.mp ha
    rw [List.mem_range'_1] at hk
    exact ⟨hle, by omega, by omega⟩
  · rintro ⟨hle, hlo, hhi⟩
    refine ⟨F.height a, ?_, ancestor?_height_iff.mpr hle⟩
    rw [List.mem_range'_1]
    omega

/-- The heights go up. -/
theorem pairwise_path (b : ι) (lo hi : ℕ) :
    (F.path b lo hi).Pairwise fun x y => F.height x < F.height y := by
  rw [path, List.pairwise_filterMap]
  apply List.Pairwise.imp _ List.pairwise_lt_range'
  intro k l hkl x hx y hy
  have hk := (ancestor?_eq_some_iff.mp hx).2
  have hl := (ancestor?_eq_some_iff.mp hy).2
  omega

theorem path_append (hlo : lo ≤ mid) (hhi : mid ≤ hi) :
    F.path b lo mid ++ F.path b mid hi = F.path b lo hi := by
  rw [path, path, path, ← List.filterMap_append]
  have hcut : mid + 1 = lo + 1 + 1 * (mid - lo) := by omega
  rw [hcut, List.range'_append]
  congr 2
  omega

theorem path_of_le (h : hi ≤ lo) : F.path b lo hi = [] := by
  rw [path, Nat.sub_eq_zero_of_le h]
  rfl

/-- The path between neighbouring heights. -/
theorem path_eq_singleton {k : ℕ} (hk : k + 1 = F.height a) (h : F.Le a b) :
    F.path b k (F.height a) = [a] := by
  have hone : F.height a - k = 1 := by omega
  have ha : F.ancestor? (F.height a) b = some a := ancestor?_height_iff.mpr h
  rw [path, hone, hk, List.range'_one]
  simp only [List.filterMap_cons, List.filterMap_nil, ha]

end Forest
