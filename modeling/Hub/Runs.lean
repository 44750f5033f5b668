/-
# Runs of a partial step function

A system is a step function `σ → ε → Option σ` on states `σ` and events `ε`; `none`
is a step that cannot be taken.  A run applies a list of events to a state.

`Each` says that every event of a run meets a condition in the state in which it
arrives, `Always` that no step fails and that every state of the run satisfies a
property.  `always_of_each` is the invariant rule, and `always_iff_each` the rule for
a property that holds along a run exactly when its events meet a condition.
-/
import Mathlib.Tactic.Common

namespace Runs

variable {σ ε : Type*} (step : σ → ε → Option σ)

/-- Every event meets `C` in the state in which it arrives. -/
def Each (C : σ → ε → Prop) : σ → List ε → Prop
  | _, [] => True
  | s, e :: es => C s e ∧ ∀ s', step s e = some s' → Each C s' es

/-- No step fails, and all states of the run satisfy `P`. -/
def Always (P : σ → Prop) : σ → List ε → Prop
  | s, [] => P s
  | s, e :: es => P s ∧ ∃ s', step s e = some s' ∧ Always P s' es

/-- `Each` can be evaluated. -/
instance decidableEach (C : σ → ε → Prop) [∀ s e, Decidable (C s e)] :
    ∀ (s : σ) (es : List ε), Decidable (Each step C s es)
  | _, [] => .isTrue trivial
  | s, e :: es =>
      match h : step s e with
      | none => decidable_of_iff (C s e) (by simp [Each, h])
      | some s' =>
          haveI := decidableEach C s' es
          decidable_of_iff (C s e ∧ Each step C s' es) (by simp [Each, h])

/-- `Always` can be evaluated. -/
instance decidableAlways (P : σ → Prop) [DecidablePred P] :
    ∀ (s : σ) (es : List ε), Decidable (Always step P s es)
  | s, [] => inferInstanceAs (Decidable (P s))
  | s, e :: es =>
      match h : step s e with
      | none => .isFalse (by simp [Always, h])
      | some s' =>
          haveI := decidableAlways P s' es
          decidable_of_iff (P s ∧ Always step P s' es) (by simp [Always, h])

variable {step}

/-- **The invariant rule.**  What a step that meets `C` preserves holds along every run
whose steps all meet `C`. -/
theorem always_of_each {I : σ → Prop} {C : σ → ε → Prop}
    (hstep : ∀ s e, I s → C s e → ∃ s', step s e = some s' ∧ I s') :
    ∀ (es : List ε) (s : σ), I s → Each step C s es → Always step I s es := by
  intro es
  induction es with
  | nil =>
    intro s hs _
    exact hs
  | cons e es ih =>
    intro s hs hc
    obtain ⟨s', hs', hinv⟩ := hstep s e hs hc.1
    exact ⟨hs, s', hs', ih s' hinv (hc.2 s' hs')⟩

theorem Always.mono {P Q : σ → Prop} (hPQ : ∀ s, P s → Q s) :
    ∀ {es : List ε} {s : σ}, Always step P s es → Always step Q s es := by
  intro es
  induction es with
  | nil =>
    intro s h
    exact hPQ s h
  | cons e es ih =>
    rintro s ⟨hs, s', hs', h⟩
    exact ⟨hPQ s hs, s', hs', ih h⟩

theorem Always.head {P : σ → Prop} {es : List ε} {s : σ} (h : Always step P s es) : P s := by
  cases es with
  | nil => exact h
  | cons e es => exact h.1

/-- The state at the end of a run. -/
theorem Always.final {P : σ → Prop} : ∀ {es : List ε} {s : σ}, Always step P s es →
    ∃ s', es.foldlM step s = some s' ∧ P s' := by
  intro es
  induction es with
  | nil =>
    intro s h
    exact ⟨s, rfl, h⟩
  | cons e es ih =>
    rintro s ⟨-, t, ht, h⟩
    obtain ⟨s', hrun, hs'⟩ := ih h
    refine ⟨s', ?_, hs'⟩
    rw [List.foldlM_cons, ht]
    exact hrun

theorem Each.mono {C D : σ → ε → Prop} (hCD : ∀ s e, C s e → D s e) :
    ∀ {es : List ε} {s : σ}, Each step C s es → Each step D s es := by
  intro es
  induction es with
  | nil =>
    intro s _
    trivial
  | cons e es ih =>
    rintro s ⟨hs, h⟩
    exact ⟨hCD s e hs, fun s' hs' => ih (h s' hs')⟩

/-- A condition that always holds. -/
theorem each_of_forall {C : σ → ε → Prop} (h : ∀ s e, C s e) (es : List ε) (s : σ) :
    Each step C s es := by
  induction es generalizing s with
  | nil => trivial
  | cons e es ih => exact ⟨h s e, fun s' _ => ih s'⟩

/-- What a step preserves holds at the end of a run that ends. -/
theorem foldlM_inv {P : σ → Prop} : ∀ {es : List ε} {s s' : σ},
    (∀ t e t', e ∈ es → P t → step t e = some t' → P t') → P s →
    es.foldlM step s = some s' → P s' := by
  intro es
  induction es with
  | nil =>
    intro s s' _ hs h
    rw [List.foldlM_nil] at h
    obtain rfl := Option.some.inj h
    exact hs
  | cons e es ih =>
    intro s s' hstep hs h
    rw [List.foldlM_cons] at h
    obtain ⟨t, ht, h⟩ := Option.bind_eq_some_iff.mp h
    exact ih (fun t e t' he => hstep t e t' (by simp [he])) (hstep s e t (by simp) hs ht) h

/-- What a step that meets `C` preserves holds at the end of a run that ends and whose steps all
meet `C`. -/
theorem foldlM_inv_of_each {I : σ → Prop} {C : σ → ε → Prop}
    (hstep : ∀ s e s', I s → C s e → step s e = some s' → I s') :
    ∀ {es : List ε} {s s' : σ}, I s → Each step C s es → es.foldlM step s = some s' → I s' := by
  intro es
  induction es with
  | nil =>
    intro s s' hs _ h
    rw [List.foldlM_nil] at h
    obtain rfl := Option.some.inj h
    exact hs
  | cons e es ih =>
    intro s s' hs hc h
    rw [List.foldlM_cons] at h
    obtain ⟨t, ht, h⟩ := Option.bind_eq_some_iff.mp h
    exact ih (hstep s e t hs hc.1 ht) (hc.2 t ht) h

/-- A loop of steps that do not fail as long as `P` holds, and keep `P`. -/
theorem foldlM_total {P : σ → Prop} : ∀ {es : List ε} {s : σ},
    (∀ t e, e ∈ es → P t → ∃ t', step t e = some t' ∧ P t') → P s →
    ∃ s', es.foldlM step s = some s' ∧ P s' := by
  intro es
  induction es with
  | nil =>
    intro s _ hs
    exact ⟨s, rfl, hs⟩
  | cons e es ih =>
    intro s hstep hs
    obtain ⟨t, ht, hPt⟩ := hstep s e List.mem_cons_self hs
    obtain ⟨s', hs', hP⟩ := ih (fun u d hd => hstep u d (List.mem_cons_of_mem e hd)) hPt
    refine ⟨s', ?_, hP⟩
    rw [List.foldlM_cons, ht]
    exact hs'

/-- **The exact rule.**  Let every step that is allowed by `L` and meets `C` keep an
invariant that implies `P`, and let every step that is allowed and does not meet `C`
break `P`.  Then `P` holds along an allowed run exactly when all its steps meet `C`. -/
theorem always_iff_each {I P : σ → Prop} {L C : σ → ε → Prop}
    (hP : ∀ s, I s → P s)
    (hgood : ∀ s e, I s → L s e → C s e → ∃ s', step s e = some s' ∧ I s')
    (hbad : ∀ s e s', I s → L s e → ¬ C s e → step s e = some s' → ¬ P s') :
    ∀ (es : List ε) (s : σ), I s → Each step L s es →
      (Always step P s es ↔ Each step C s es) := by
  intro es
  induction es with
  | nil =>
    intro s hs _
    exact ⟨fun _ => trivial, fun _ => hP s hs⟩
  | cons e es ih =>
    intro s hs hL
    constructor
    · rintro ⟨_, s', hs', hrun⟩
      have hC : C s e := by
        by_contra hC
        exact hbad s e s' hs hL.1 hC hs' hrun.head
      obtain ⟨t, ht, hinv⟩ := hgood s e hs hL.1 hC
      refine ⟨hC, fun u hu => ?_⟩
      obtain rfl : s' = u := Option.some.inj (hs'.symm.trans hu)
      obtain rfl : s' = t := Option.some.inj (hs'.symm.trans ht)
      exact (ih s' hinv (hL.2 s' hs')).mp hrun
    · rintro ⟨hC, hrest⟩
      obtain ⟨t, ht, hinv⟩ := hgood s e hs hL.1 hC
      exact ⟨hP s hs, t, ht, (ih t hinv (hL.2 t ht)).mpr (hrest t ht)⟩

end Runs
