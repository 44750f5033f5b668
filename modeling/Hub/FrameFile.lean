/-
# Frames one after the other

A file to which records are appended: each item is written as a frame, and the items
remember where their frame starts.  `Laid` says that the frames follow each other without
a gap.  Nothing here says what a frame is made of.

* `laid_concat` : appending an item behind the last frame;
* `Laid.drop_start` : what a reader finds at the start of an item;
* `Laid.pairwise` : no two frames overlap.
-/
import Mathlib.Data.List.Basic
import Mathlib.Tactic.Common

namespace FrameFile

variable {α β : Type*} (frame : α → List β) (start : α → ℕ)

/-- The frames of the items lie one after the other, the first one at offset `p`. -/
def Laid : ℕ → List α → Prop
  | _, [] => True
  | p, x :: xs => start x = p ∧ Laid (p + (frame x).length) xs

variable {frame start}

theorem laid_concat {x : α} : ∀ {xs : List α} {p : ℕ},
    Laid frame start p (xs ++ [x])
      ↔ Laid frame start p xs ∧ start x = p + (xs.flatMap frame).length := by
  intro xs
  induction xs with
  | nil =>
    intro p
    simp [Laid]
  | cons y ys ih =>
    intro p
    rw [List.cons_append, Laid, Laid, ih, List.flatMap_cons, List.length_append, ← Nat.add_assoc,
      and_assoc]

theorem Laid.le_start : ∀ {xs : List α} {p : ℕ}, Laid frame start p xs →
    ∀ x ∈ xs, p ≤ start x := by
  intro xs
  induction xs with
  | nil =>
    intro p _ x hx
    cases hx
  | cons y ys ih =>
    rintro p ⟨hy, hys⟩ x hx
    rcases List.mem_cons.mp hx with rfl | hx
    · omega
    · have := ih hys x hx
      omega

/-- **No two frames overlap.** -/
theorem Laid.pairwise : ∀ {xs : List α} {p : ℕ}, Laid frame start p xs →
    xs.Pairwise fun x y => start x + (frame x).length ≤ start y := by
  intro xs
  induction xs with
  | nil =>
    intro p _
    exact List.Pairwise.nil
  | cons y ys ih =>
    rintro p ⟨hy, hys⟩
    refine List.Pairwise.cons (fun x hx => ?_) (ih hys)
    rw [hy]
    exact hys.le_start x hx

/-- A reader at the start of an item finds its frame. -/
theorem Laid.drop_start {file rest : List β} : ∀ {xs : List α} {p : ℕ},
    Laid frame start p xs → file.drop p = xs.flatMap frame ++ rest →
    ∀ x ∈ xs, ∃ rest', file.drop (start x) = frame x ++ rest' := by
  intro xs
  induction xs with
  | nil =>
    intro p _ _ x hx
    cases hx
  | cons y ys ih =>
    rintro p ⟨hy, hys⟩ hfile x hx
    rw [List.flatMap_cons, List.append_assoc] at hfile
    rcases List.mem_cons.mp hx with rfl | hx
    · exact ⟨_, hy ▸ hfile⟩
    · refine ih hys ?_ x hx
      rw [← List.drop_drop, hfile, List.drop_left]

end FrameFile
