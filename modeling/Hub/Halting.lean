/-
# Programs that halt

Programs over a state that end with a value or halt early, and keep the state either way:
`EStateM ε σ α`.

`Sat P x Q E` is a triple for them: started in a state of `P`, the program `x` ends in `Q` or
halts in `E`.  `Refines x y` says that `y` does what `x` does whenever `x` ends.  Both go along
with doing one thing after the other.
-/
import Mathlib.Tactic.Common

namespace Halting

variable {ε σ α β : Type}

/-- Do `x` when `c` holds. -/
def doIf (c : Prop) [Decidable c] (x : EStateM ε σ Unit) : EStateM ε σ Unit :=
  if c then x else pure ()

/-- Halt with `e` when `c` holds. -/
def haltIf (c : Prop) [Decidable c] (e : ε) : EStateM ε σ Unit := doIf c (throw e)

/-- What one program leaves to the next. -/
theorem bind_apply (x : EStateM ε σ α) (f : α → EStateM ε σ β) (s : σ) :
    (x >>= f) s = match x s with
      | .ok a s => f a s
      | .error e s => .error e s := by
  show EStateM.bind x f s = _
  unfold EStateM.bind
  cases x s <;> rfl

theorem bind_apply_ok {x : EStateM ε σ α} {f : α → EStateM ε σ β} {s s' : σ} {a : α}
    (h : x s = .ok a s') : (x >>= f) s = f a s' := by
  rw [bind_apply, h]

theorem bind_apply_error {x : EStateM ε σ α} {f : α → EStateM ε σ β} {s s' : σ} {e : ε}
    (h : x s = .error e s') : (x >>= f) s = .error e s' := by
  rw [bind_apply, h]

theorem pure_apply (a : α) (s : σ) : (pure a : EStateM ε σ α) s = .ok a s := rfl

theorem get_apply (s : σ) : (get : EStateM ε σ σ) s = .ok s s := rfl

theorem modify_apply (f : σ → σ) (s : σ) : (modify f : EStateM ε σ PUnit) s = .ok () (f s) := rfl

theorem haltIf_apply_of_neg {c : Prop} [Decidable c] {e : ε} (h : ¬ c) (s : σ) :
    (haltIf c e : EStateM ε σ Unit) s = .ok () s := by
  rw [haltIf, doIf, if_neg h]
  rfl

theorem haltIf_apply_of_pos {c : Prop} [Decidable c] {e : ε} (h : c) (s : σ) :
    (haltIf c e : EStateM ε σ Unit) s = .error e s := by
  rw [haltIf, doIf, if_pos h]
  rfl

/-- The state at the end, however it comes. -/
def final : EStateM.Result ε σ α → σ
  | .ok _ s => s
  | .error _ s => s

/-! ## Triples -/

/-- Where a program may end. -/
def Ends (Q : α → σ → Prop) (E : ε → σ → Prop) : EStateM.Result ε σ α → Prop
  | .ok a s => Q a s
  | .error e s => E e s

/-- Started in `P`, the program ends in `Q` or halts in `E`. -/
structure Sat (P : σ → Prop) (x : EStateM ε σ α) (Q : α → σ → Prop) (E : ε → σ → Prop) :
    Prop where
  run (s : σ) (hs : P s) : Ends Q E (x s)

variable {P P' : σ → Prop} {Q Q' : α → σ → Prop} {R : β → σ → Prop} {E : ε → σ → Prop}

theorem Sat.ok {x : EStateM ε σ α} {s s' : σ} {a : α} (h : Sat P x Q E) (hs : P s)
    (hx : x s = .ok a s') : Q a s' := by
  have hend := h.run s hs
  rwa [hx] at hend

theorem Sat.error {x : EStateM ε σ α} {s s' : σ} {e : ε} (h : Sat P x Q E) (hs : P s)
    (hx : x s = .error e s') : E e s' := by
  have hend := h.run s hs
  rwa [hx] at hend

theorem sat_pure {a : α} (h : ∀ s, P s → Q a s) : Sat P (pure a : EStateM ε σ α) Q E :=
  ⟨fun s hs => h s hs⟩

theorem sat_throw {e : ε} (h : ∀ s, P s → E e s) : Sat P (throw e : EStateM ε σ α) Q E :=
  ⟨fun s hs => h s hs⟩

/-- **One thing after the other.** -/
theorem Sat.bind {x : EStateM ε σ α} {f : α → EStateM ε σ β} (hx : Sat P x Q E)
    (hf : ∀ a, Sat (Q a) (f a) R E) : Sat P (x >>= f) R E := by
  refine ⟨fun s hs => ?_⟩
  rw [bind_apply]
  have h := hx.run s hs
  cases hrun : x s with
  | ok a s' =>
    rw [hrun] at h
    exact (hf a).run s' h
  | error e s' =>
    rw [hrun] at h
    exact h

theorem sat_ite {c : Prop} [Decidable c] {x y : EStateM ε σ α} (hx : c → Sat P x Q E)
    (hy : ¬ c → Sat P y Q E) : Sat P (if c then x else y) Q E := by
  split_ifs with h
  · exact hx h
  · exact hy h

theorem sat_doIf {c : Prop} [Decidable c] {x : EStateM ε σ Unit} {Q : Unit → σ → Prop}
    (hx : c → Sat P x Q E) (hpure : ¬ c → ∀ s, P s → Q () s) : Sat P (doIf c x) Q E :=
  sat_ite hx fun h => sat_pure (hpure h)

/-- After a halt that was not taken, its condition is known to be false. -/
theorem sat_haltIf {c : Prop} [Decidable c] {e : ε} (he : ∀ s, P s → E e s) :
    Sat P (haltIf c e) (fun _ s => P s ∧ ¬ c) E :=
  sat_doIf (fun _ => sat_throw he) fun h _ hs => ⟨hs, h⟩

theorem sat_haltIf_of_neg {c : Prop} [Decidable c] {e : ε} (h : ¬ c) :
    Sat P (haltIf c e) (fun _ => P) E :=
  sat_doIf (fun hc => absurd hc h) fun _ _ hs => hs

theorem sat_get : Sat P (get : EStateM ε σ σ) (fun a s => P s ∧ a = s) E :=
  ⟨fun _ hs => ⟨hs, rfl⟩⟩

theorem sat_modify {f : σ → σ} {Q : PUnit → σ → Prop} (h : ∀ s, P s → Q () (f s)) :
    Sat P (modify f : EStateM ε σ PUnit) Q E :=
  ⟨fun s hs => h s hs⟩

theorem Sat.mono {E' : ε → σ → Prop} {x : EStateM ε σ α} (h : Sat P x Q E)
    (hpre : ∀ s, P' s → P s) (hpost : ∀ a s, Q a s → Q' a s) (herror : ∀ e s, E e s → E' e s) :
    Sat P' x Q' E' := by
  refine ⟨fun s hs => ?_⟩
  have hend := h.run s (hpre s hs)
  cases hx : x s with
  | ok a s' =>
    rw [hx] at hend
    exact hpost a s' hend
  | error e s' =>
    rw [hx] at hend
    exact herror e s' hend

/-- A fact that does not speak of the state goes out of the triple. -/
theorem sat_of_and {p : Prop} {x : EStateM ε σ α} (h : p → Sat P x Q E) :
    Sat (fun s => P s ∧ p) x Q E :=
  ⟨fun s hs => (h hs.2).run s hs.1⟩

/-! ## Refinement -/

/-- Whenever `x` ends, `y` ends with the same value in the same state. -/
def Refines (x y : EStateM ε σ α) : Prop := ∀ s a s', x s = .ok a s' → y s = .ok a s'

theorem Refines.refl (x : EStateM ε σ α) : Refines x x := fun _ _ _ h => h

/-- What one program ends in goes on to the next. -/
theorem exists_of_bind_eq_ok {x : EStateM ε σ α} {f : α → EStateM ε σ β} {s s' : σ} {b : β}
    (h : (x >>= f) s = .ok b s') : ∃ a s₁, x s = .ok a s₁ ∧ f a s₁ = .ok b s' := by
  rw [bind_apply] at h
  cases hx : x s with
  | ok a s₁ =>
    rw [hx] at h
    exact ⟨a, s₁, rfl, h⟩
  | error e s₁ =>
    rw [hx] at h
    cases h

theorem pure_eq_ok {a b : α} {s s' : σ} (h : (pure a : EStateM ε σ α) s = .ok b s') :
    b = a ∧ s' = s := by
  rw [pure_apply] at h
  injection h with h₁ h₂
  exact ⟨h₁.symm, h₂.symm⟩

theorem haltIf_eq_ok {c : Prop} [Decidable c] {e : ε} {s s' : σ} {a : Unit}
    (h : (haltIf c e : EStateM ε σ Unit) s = .ok a s') : ¬ c ∧ s' = s := by
  by_cases hc : c
  · rw [haltIf_apply_of_pos hc] at h
    cases h
  · rw [haltIf_apply_of_neg hc] at h
    cases h
    exact ⟨hc, rfl⟩

/-- **One thing after the other.** -/
theorem Refines.bind {x y : EStateM ε σ α} {f g : α → EStateM ε σ β} (hxy : Refines x y)
    (hfg : ∀ a, Refines (f a) (g a)) : Refines (x >>= f) (y >>= g) := by
  intro s b s' h
  obtain ⟨a, s₁, hx, hf⟩ := exists_of_bind_eq_ok h
  rw [bind_apply, hxy s a s₁ hx]
  exact hfg a s₁ b s' hf

theorem refines_throw {e : ε} {y : EStateM ε σ α} : Refines (throw e) y := by
  rintro s a s' ⟨⟩

/-- A check may be dropped. -/
theorem refines_haltIf {c d : Prop} [Decidable c] [Decidable d] {e e' : ε} (h : d → c) :
    Refines (haltIf c e : EStateM ε σ Unit) (haltIf d e') := by
  unfold haltIf doIf
  by_cases hc : c
  · rw [if_pos hc]
    exact refines_throw
  · rw [if_neg hc, if_neg fun hd => hc (h hd)]
    exact Refines.refl _

theorem Refines.ite {c : Prop} [Decidable c] {x x' y y' : EStateM ε σ α} (hx : c → Refines x x')
    (hy : ¬ c → Refines y y') : Refines (if c then x else y) (if c then x' else y') := by
  split_ifs with h
  · exact hx h
  · exact hy h

/-- The program leaves the state alone when it ends. -/
def Still (x : EStateM ε σ α) : Prop := ∀ s a s', x s = .ok a s' → s' = s

theorem still_pure (a : α) : Still (pure a : EStateM ε σ α) := by
  intro s b s' h
  exact (pure_eq_ok h).2

theorem still_get : Still (get : EStateM ε σ σ) := by
  rintro s a s' ⟨⟩
  rfl

theorem still_haltIf {c : Prop} [Decidable c] {e : ε} : Still (haltIf c e : EStateM ε σ Unit) :=
  fun _ _ _ h => (haltIf_eq_ok h).2

theorem Still.bind {x : EStateM ε σ α} {f : α → EStateM ε σ β} (hx : Still x)
    (hf : ∀ a, Still (f a)) : Still (x >>= f) := by
  intro s b s' h
  obtain ⟨a, s₁, h₁, h₂⟩ := exists_of_bind_eq_ok h
  exact (hf a s₁ b s' h₂).trans (hx s a s₁ h₁)

theorem still_doIf {c : Prop} [Decidable c] {x : EStateM ε σ Unit} (hx : Still x) :
    Still (doIf c x) := by
  unfold doIf
  split_ifs
  · exact hx
  · exact still_pure ()

/-- A program that leaves the state alone may be dropped. -/
theorem Still.refines_pure {x : EStateM ε σ Unit} (h : Still x) : Refines x (pure ()) := by
  intro s a s' hx
  obtain rfl := h s a s' hx
  rfl

/-- A part that leaves the state alone may be done less often. -/
theorem refines_doIf {c d : Prop} [Decidable c] [Decidable d] {x y : EStateM ε σ Unit}
    (hdc : d → c) (hxy : Refines x y) (hx : Still x) : Refines (doIf c x) (doIf d y) := by
  by_cases hd : d
  · rw [doIf, doIf, if_pos hd, if_pos (hdc hd)]
    exact hxy
  · rw [doIf, doIf, if_neg hd]
    split_ifs
    · exact hx.refines_pure
    · exact Refines.refl _

end Halting
