/-
# Rounds in place

A compression function mixes its variables in rounds.  Written down, a round moves every variable
along by one; a program leaves them where they are and passes them to the next round under the name
of their neighbour.  The words that the rounds use come from a recurrence over the last words; a
program keeps only those, in a ring.

## Main results

* `arguments_call` : after a round in place, the next one sees the variables moved along;
* `RingHolds.set` : a ring goes on to hold the last words.
-/
import Mathlib.Algebra.Order.Ring.Nat
import Mathlib.Data.Fin.Basic
import Mathlib.Data.ZMod.Defs
import Mathlib.Tactic.Common

namespace InPlaceRounds

variable {α : Type} {n : ℕ} [NeZero n]

/-- The variables in the order in which round `t` is given them. -/
def arguments (t : ℕ) (r : Vector α n) : Vector α n :=
  .ofFn fun j => r.get (j - Fin.ofNat n t)

/-- Round `t` is called with the variables, and what it leaves in its parameters is what they are
afterwards. -/
def call (t : ℕ) (round : Vector α n → Vector α n) (r : Vector α n) : Vector α n :=
  let left := round (arguments t r)
  .ofFn fun i => left.get (i + Fin.ofNat n t)

/-- The variables move along by one. -/
def shift (v : Vector α n) : Vector α n :=
  .ofFn fun j => v.get (j - 1)

omit [NeZero n] in
theorem get_ofFn (f : Fin n → α) (j : Fin n) : (Vector.ofFn f).get j = f j :=
  Vector.getElem_ofFn j.isLt

omit [NeZero n] in
theorem ext_get {v v' : Vector α n} (h : ∀ j, v.get j = v'.get j) : v = v' :=
  Vector.ext fun j hj => h ⟨j, hj⟩

theorem getElem_shift (v : Vector α n) {j k : ℕ} (hj : j < n) (hk : k < n)
    (h : (j + (n - 1)) % n = k) : (shift v)[j] = v[k] := by
  subst h
  have hval : ((⟨j, hj⟩ : Fin n) - 1).val = (j + (n - 1)) % n := by
    rw [Fin.val_sub, Fin.val_one']
    by_cases hn : n = 1
    · subst hn
      omega
    · rw [Nat.mod_eq_of_lt (by omega : 1 < n), Nat.add_comm]
  rw [shift, Vector.getElem_ofFn]
  change v[((⟨j, hj⟩ : Fin n) - 1).val] = _
  simp only [hval]

theorem arguments_of_dvd {t : ℕ} (h : n ∣ t) (r : Vector α n) : arguments t r = r := by
  have hzero : Fin.ofNat n t = 0 := Fin.ext (Nat.mod_eq_zero_of_dvd h)
  refine ext_get fun j => ?_
  rw [arguments, get_ofFn, hzero, sub_zero]

/-- After a round in place, the next round sees the variables moved along. -/
theorem arguments_call (t : ℕ) (round : Vector α n → Vector α n) (r : Vector α n) :
    arguments (t + 1) (call t round r) = shift (round (arguments t r)) := by
  have hsucc : Fin.ofNat n (t + 1) = Fin.ofNat n t + 1 := by
    refine Fin.ext ?_
    rw [Fin.val_add, Fin.val_ofNat, Fin.val_ofNat, Fin.val_one', Nat.add_mod]
  refine ext_get fun j => ?_
  rw [arguments, call, shift, get_ofFn, get_ofFn, get_ofFn, hsucc, sub_add_eq_sub_sub_swap,
    sub_add_cancel]

/-! ## Words in a ring -/

/-- Before word `t`, a ring holds the last words of a sequence. -/
def RingHolds (word : ℕ → α) (t : ℕ) (ring : Vector α n) : Prop :=
  ∀ i, i < t → t ≤ i + n → ring.get (Fin.ofNat n i) = word i

theorem ringHolds_zero (word : ℕ → α) (ring : Vector α n) : RingHolds word 0 ring :=
  fun i hi => absurd hi (Nat.not_lt_zero i)

/-- A place once around the ring. -/
theorem RingHolds.get_add {word : ℕ → α} {t i : ℕ} {ring : Vector α n} (h : RingHolds word t ring)
    (hi : i < t) (hn : t ≤ i + n) : ring.get (Fin.ofNat n (i + n)) = word i := by
  have hplace : Fin.ofNat n (i + n) = Fin.ofNat n i := Fin.ext (Nat.add_mod_right i n)
  rw [hplace]
  exact h i hi hn

/-- The next word takes the place of the oldest one. -/
theorem RingHolds.set {word : ℕ → α} {t : ℕ} {ring : Vector α n} (h : RingHolds word t ring) :
    RingHolds word (t + 1) (ring.set (t % n) (word t) (Nat.mod_lt t (NeZero.pos n))) := by
  intro i hi hn
  have hlt : i % n < n := Nat.mod_lt i (NeZero.pos n)
  change (ring.set (t % n) (word t) _)[i % n] = word i
  by_cases heq : i = t
  · subst heq
    exact Vector.getElem_set_self _
  · have hne : t % n ≠ i % n := by
      intro hmod
      have hdvd := (Nat.modEq_iff_dvd' (by omega : i ≤ t)).mp hmod.symm
      exact absurd (Nat.le_of_dvd (by omega) hdvd) (by omega)
    rw [Vector.getElem_set_ne _ _ hne]
    exact h i (by omega) (by omega)

end InPlaceRounds
