/-
# Worklists and paths

A worklist algorithm visits the nodes of a graph: it takes a node from its list of staged
nodes, marks it as done, and stages the nodes next to it that are not done.  `run` is
this loop, with the number of rounds as fuel; `next` may fail.

`run_spec`: on a finite set of nodes that `next` does not leave, as many rounds as there
are nodes are enough, and then exactly those nodes are done that were done before or can
be reached from a staged one.

Two rules say what happens to the paths of a graph when nodes are taken away, and when a
node is added that no node leads to.
-/
import Mathlib.Data.Finset.Card
import Mathlib.Data.List.Nodup
import Mathlib.Logic.Relation

namespace Worklist

variable {α : Type*}

/-- `y` is next to `x`. -/
def Next (next : α → Option (List α)) (x y : α) : Prop := ∃ l, next x = some l ∧ y ∈ l

/-- `y` can be reached from `x`. -/
abbrev Reach (next : α → Option (List α)) : α → α → Prop := Relation.ReflTransGen (Next next)

variable {next : α → Option (List α)}

/-- What is left when everything next to a done node is done or staged is closed under
`Next`. -/
theorem closed_of_mem_iff {stage done r : List α}
    (hclosed : ∀ x ∈ done, ∀ y, Next next x y → y ∈ done ∨ y ∈ stage)
    (hr : ∀ x, x ∈ r ↔ x ∈ done ∨ ∃ y ∈ stage, Reach next y x) :
    ∀ x ∈ r, ∀ y, Next next x y → y ∈ r := by
  intro x hx y hxy
  rw [hr] at hx ⊢
  rcases hx with hx | ⟨z, hz, hzx⟩
  · rcases hclosed x hx y hxy with hy | hy
    · exact .inl hy
    · exact .inr ⟨y, hy, .refl⟩
  · exact .inr ⟨z, hz, hzx.tail hxy⟩

theorem mem_of_reach {r : List α} (hr : ∀ x ∈ r, ∀ y, Next next x y → y ∈ r) {x y : α}
    (hx : x ∈ r) (hxy : Reach next x y) : y ∈ r := by
  induction hxy with
  | refl => exact hx
  | tail _ h ih => exact hr _ ih _ h

variable [DecidableEq α]

/-- Stage the `nodes` that are not done. -/
def push (done stage nodes : List α) : List α :=
  nodes.foldl (fun stage y => if y ∈ done then stage else stage.insert y) stage

variable (next) in
/-- The loop. -/
def run : ℕ → List α → List α → Option (List α)
  | _, [], done => some done
  | 0, _ :: _, _ => none
  | fuel + 1, it :: stage, done => do
      let done := done.insert it
      let nodes ← next it
      run fuel (push done stage nodes) done

theorem mem_push {done nodes : List α} {x : α} : ∀ {stage : List α},
    x ∈ push done stage nodes ↔ x ∈ stage ∨ (x ∈ nodes ∧ x ∉ done) := by
  induction nodes with
  | nil => simp [push]
  | cons y nodes ih =>
    intro stage
    rw [push, List.foldl_cons]
    by_cases hy : y ∈ done
    · rw [if_pos hy, ← push, ih, List.mem_cons]
      constructor
      · rintro (h | ⟨h, h'⟩)
        · exact .inl h
        · exact .inr ⟨.inr h, h'⟩
      · rintro (h | ⟨rfl | h, h'⟩)
        · exact .inl h
        · exact absurd hy h'
        · exact .inr ⟨h, h'⟩
    · rw [if_neg hy, ← push, ih, List.mem_insert_iff, List.mem_cons]
      constructor
      · rintro ((rfl | h) | ⟨h, h'⟩)
        · exact .inr ⟨.inl rfl, hy⟩
        · exact .inl h
        · exact .inr ⟨.inr h, h'⟩
      · rintro (h | ⟨rfl | h, h'⟩)
        · exact .inl (.inr h)
        · exact .inl (.inl rfl)
        · exact .inr ⟨h, h'⟩

theorem nodup_push (done : List α) : ∀ (nodes : List α) {stage : List α}, stage.Nodup →
    (push done stage nodes).Nodup := by
  intro nodes
  induction nodes with
  | nil =>
    intro stage h
    exact h
  | cons y nodes ih =>
    intro stage h
    rw [push, List.foldl_cons]
    by_cases hy : y ∈ done
    · rw [if_pos hy]
      exact ih h
    · rw [if_neg hy]
      exact ih h.insert

variable (next) in
/-- **What the loop leaves.** -/
theorem run_spec (U : Finset α) (hU : ∀ x ∈ U, ∃ l, next x = some l ∧ ∀ y ∈ l, y ∈ U) :
    ∀ (fuel : ℕ) (stage done : List α), stage.Nodup → done.Nodup →
    (∀ x ∈ stage, x ∈ U ∧ x ∉ done) → (∀ x ∈ done, x ∈ U) →
    (∀ x ∈ done, ∀ y, Next next x y → y ∈ done ∨ y ∈ stage) → U.card ≤ fuel + done.length →
    ∃ r, run next fuel stage done = some r ∧ r.Nodup ∧
      ∀ x, x ∈ r ↔ x ∈ done ∨ ∃ y ∈ stage, Reach next y x := by
  intro fuel
  induction fuel with
  | zero =>
    intro stage done _ hdone hstage hsub _ hfuel
    cases stage with
    | nil => exact ⟨done, rfl, hdone, by simp⟩
    | cons it stage =>
      -- the node `it` is one more than there is room for
      exfalso
      obtain ⟨hit, hnew⟩ := hstage it (by simp)
      have hlt : done.toFinset.card < U.card := by
        apply Finset.card_lt_card
        refine Finset.ssubset_iff_of_subset (fun x hx => hsub x (by simpa using hx)) |>.mpr ?_
        exact ⟨it, hit, by simpa using hnew⟩
      rw [List.toFinset_card_of_nodup hdone] at hlt
      omega
  | succ fuel ih =>
    intro stage done hsd hdone hstage hsub hclosed hfuel
    cases stage with
    | nil => exact ⟨done, rfl, hdone, by simp⟩
    | cons it stage =>
      obtain ⟨hit, hnew⟩ := hstage it (by simp)
      obtain ⟨nodes, hnodes, hin⟩ := hU it hit
      have hins : done.insert it = it :: done := List.insert_of_not_mem hnew
      have hnext : ∀ y, Next next it y ↔ y ∈ nodes := by
        intro y
        simp [Next, hnodes]
      have hclosed' : ∀ x ∈ it :: done, ∀ y, Next next x y →
          y ∈ it :: done ∨ y ∈ push (it :: done) stage nodes := by
        intro x hx y hxy
        by_cases hy : y ∈ it :: done
        · exact .inl hy
        · right
          rw [mem_push]
          rcases List.mem_cons.mp hx with rfl | hx
          · exact .inr ⟨(hnext y).mp hxy, hy⟩
          · rcases hclosed x hx y hxy with h | h
            · exact absurd (List.mem_cons_of_mem _ h) hy
            · rcases List.mem_cons.mp h with rfl | h
              · exact absurd (by simp) hy
              · exact .inl h
      obtain ⟨r, hr, hnodup, hmem⟩ := ih (push (it :: done) stage nodes) (it :: done)
        (nodup_push _ _ (List.nodup_cons.mp hsd).2) (List.nodup_cons.mpr ⟨hnew, hdone⟩)
        (by
          intro x hpush
          rcases mem_push.mp hpush with hx | ⟨hx, hx'⟩
          · obtain ⟨h, h'⟩ := hstage x (by simp [hx])
            refine ⟨h, fun hc => ?_⟩
            rcases List.mem_cons.mp hc with rfl | hc
            · exact (List.nodup_cons.mp hsd).1 hx
            · exact h' hc
          · exact ⟨hin x hx, hx'⟩)
        (by
          intro x hx
          rcases List.mem_cons.mp hx with rfl | hx
          · exact hit
          · exact hsub x hx)
        hclosed' (by rw [List.length_cons]; omega)
      refine ⟨r, ?_, hnodup, fun x => ?_⟩
      · rw [run, hins, hnodes]
        exact hr
      · have hclosedr := closed_of_mem_iff hclosed' hmem
        constructor
        · intro hx
          rcases (hmem x).mp hx with hx | ⟨y, hy, hyx⟩
          · rcases List.mem_cons.mp hx with rfl | hx
            · exact .inr ⟨x, by simp, .refl⟩
            · exact .inl hx
          · rcases mem_push.mp hy with hy | ⟨hy, -⟩
            · exact .inr ⟨y, by simp [hy], hyx⟩
            · exact .inr ⟨it, by simp, .head ((hnext y).mpr hy) hyx⟩
        · rintro (hx | ⟨y, hy, hyx⟩)
          · exact (hmem x).mpr (.inl (by simp [hx]))
          · refine mem_of_reach hclosedr ((hmem y).mpr ?_) hyx
            rcases List.mem_cons.mp hy with rfl | hy
            · exact .inl (by simp)
            · exact .inr ⟨y, mem_push.mpr (.inl hy), .refl⟩

/-- Nothing is staged. -/
theorem run_nil (fuel : ℕ) (done : List α) : run next fuel [] done = some done := by
  cases fuel with
  | zero => rfl
  | succ fuel => rfl

/-- Nodes are staged in front. -/
theorem suffix_push (done : List α) : ∀ (nodes stage : List α),
    stage <:+ push done stage nodes := by
  intro nodes
  induction nodes with
  | nil =>
    intro stage
    exact List.suffix_rfl
  | cons y nodes ih =>
    intro stage
    rw [push, List.foldl_cons]
    by_cases hy : y ∈ done
    · rw [if_pos hy]
      exact ih stage
    · rw [if_neg hy]
      refine List.IsSuffix.trans ?_ (ih (stage.insert y))
      by_cases hmem : y ∈ stage
      · rw [List.insert_of_mem hmem]
      · rw [List.insert_of_not_mem hmem]
        exact List.suffix_cons y stage

/-- Nodes are marked as done in front. -/
theorem suffix_run : ∀ {fuel : ℕ} {stage done r : List α},
    run next fuel stage done = some r → done <:+ r := by
  intro fuel
  induction fuel with
  | zero =>
    intro stage done r h
    cases stage with
    | nil =>
      obtain rfl := Option.some.inj h
      exact List.suffix_rfl
    | cons it stage => cases h
  | succ fuel ih =>
    intro stage done r h
    cases stage with
    | nil =>
      obtain rfl := Option.some.inj h
      exact List.suffix_rfl
    | cons it stage =>
      obtain ⟨nodes, -, h⟩ := Option.bind_eq_some_iff.mp h
      refine List.IsSuffix.trans ?_ (ih h)
      by_cases hmem : it ∈ done
      · rw [List.insert_of_mem hmem]
      · rw [List.insert_of_not_mem hmem]
        exact List.suffix_cons it done

/-- What is staged gets done. -/
theorem stage_subset_of_run : ∀ {fuel : ℕ} {stage done r : List α},
    run next fuel stage done = some r → stage ⊆ r := by
  intro fuel
  induction fuel with
  | zero =>
    intro stage done r h
    cases stage with
    | nil => exact List.nil_subset r
    | cons it stage => cases h
  | succ fuel ih =>
    intro stage done r h
    cases stage with
    | nil => exact List.nil_subset r
    | cons it stage =>
      obtain ⟨nodes, -, h⟩ := Option.bind_eq_some_iff.mp h
      refine List.cons_subset.mpr ⟨?_, fun x hx => ?_⟩
      · exact (suffix_run h).subset List.mem_insert_self
      · exact ih h ((suffix_push _ nodes stage).subset hx)

end Worklist

/-! ## Paths when nodes come and go -/

namespace Paths

open Relation

variable {α : Type*} {r r' : α → α → Prop}

/-- Take away nodes that are not between others: the other paths remain. -/
theorem transGen_of_separated {R : α → Prop} (hr : ∀ x y, r x y → ¬ R x → ¬ R y → r' x y)
    (hsep : ∀ x y z, ¬ R x → R y → ¬ R z → TransGen r x y → ¬ TransGen r y z) {x z : α}
    (h : TransGen r x z) (hx : ¬ R x) (hz : ¬ R z) : TransGen r' x z := by
  induction h with
  | single h => exact .single (hr _ _ h hx hz)
  | @tail y z hxy hyz ih =>
    have hy : ¬ R y := fun hy => hsep x y z hx hy hz hxy (.single hyz)
    exact (ih hy).tail (hr _ _ hyz hy hz)

variable {n : α} {ps : α → Prop}

/-- Add a node that leads to `ps` and that no node leads to: the paths from the other nodes
are the old ones. -/
theorem transGen_of_ne (hr : ∀ x y, r' x y ↔ r x y ∨ (x = n ∧ ps y))
    (hno : ∀ x, ¬ r' x n) {x y : α} (hx : x ≠ n) : TransGen r' x y ↔ TransGen r x y := by
  constructor
  · intro h
    induction h with
    | single h =>
      rcases (hr _ _).mp h with h | ⟨rfl, -⟩
      · exact .single h
      · exact absurd rfl hx
    | @tail y z hxy hyz ih =>
      rcases (hr _ _).mp hyz with h | ⟨rfl, -⟩
      · exact ih.tail h
      · -- the last step into `n`
        obtain ⟨w, -, hw⟩ := TransGen.tail'_iff.mp hxy
        exact absurd hw (hno w)
  · exact fun h => TransGen.mono (fun x y h => (hr x y).mpr (.inl h)) _ _ h

/-- The paths from the new node. -/
theorem transGen_new (hr : ∀ x y, r' x y ↔ r x y ∨ (x = n ∧ ps y)) (hno : ∀ x, ¬ r' x n)
    (hnew : ∀ y, ¬ r n y) {y : α} : TransGen r' n y ↔ ∃ p, ps p ∧ ReflTransGen r p y := by
  rw [TransGen.head'_iff]
  constructor
  · rintro ⟨p, hp, hpy⟩
    have hne : p ≠ n := by
      rintro rfl
      exact hno _ hp
    rcases (hr _ _).mp hp with h | ⟨-, hps⟩
    · exact absurd h (hnew p)
    · refine ⟨p, hps, ?_⟩
      rcases reflTransGen_iff_eq_or_transGen.mp hpy with rfl | h
      · exact .refl
      · exact ((transGen_of_ne hr hno hne).mp h).to_reflTransGen
  · rintro ⟨p, hp, hpy⟩
    have hpy' := ReflTransGen.mono (fun x y h => (hr x y).mpr (.inl h)) _ _ hpy
    exact ⟨p, (hr _ _).mpr (.inr ⟨rfl, hp⟩), hpy'⟩

end Paths
