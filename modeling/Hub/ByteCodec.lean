/-
# Writing and reading bytes

Numbers as a fixed number of bytes, least significant byte first, and readers that take a
value off the front of a list of bytes or fail with an error.

`Reads r bytes x` says that the reader `r` takes exactly `bytes` off the front of whatever
follows and returns `x`; `Fails r bytes e` that it fails on them.  Both go along with
reading one thing after the other (`Reads.bind`, `Fails.bind`) and with reading a list
(`Reads.many`, `Fails.many`).
-/
import Mathlib.Algebra.Order.Ring.Nat
import Mathlib.Data.List.Basic
import Mathlib.Tactic.Common
import Mathlib.Tactic.Ring

namespace ByteCodec

/-! ## Numbers -/

/-- The `k` low bytes of `n`, least significant first. -/
def leBytes : ℕ → ℕ → List UInt8
  | 0, _ => []
  | k + 1, n => UInt8.ofNat n :: leBytes k (n / 256)

/-- The number whose bytes are given, least significant first. -/
def leNat : List UInt8 → ℕ
  | [] => 0
  | b :: bs => b.toNat + 256 * leNat bs

@[simp] theorem length_leBytes (k n : ℕ) : (leBytes k n).length = k := by
  induction k generalizing n with
  | zero => rfl
  | succ k ih => rw [leBytes, List.length_cons, ih]

/-- **Reading back what was written.** -/
theorem leNat_leBytes (k n : ℕ) (h : n < 256 ^ k) : leNat (leBytes k n) = n := by
  induction k generalizing n with
  | zero =>
    rw [pow_zero] at h
    rw [leBytes, leNat]
    omega
  | succ k ih =>
    have hdiv : n / 256 < 256 ^ k := by
      rw [Nat.div_lt_iff_lt_mul (by omega), ← pow_succ]
      exact h
    have hbyte : (UInt8.ofNat n).toNat = n % 256 := UInt8.toNat_ofNat'
    rw [leBytes, leNat, ih _ hdiv, hbyte]
    omega

/-- **Writing again what was read.** -/
theorem leBytes_leNat : ∀ bytes : List UInt8, leBytes bytes.length (leNat bytes) = bytes := by
  intro bytes
  induction bytes with
  | nil => rfl
  | cons b bytes ih =>
    have hb := b.toNat_lt
    have hdiv : (b.toNat + 256 * leNat bytes) / 256 = leNat bytes := by omega
    have hlow : UInt8.ofNat (b.toNat + 256 * leNat bytes) = b := by
      rw [← UInt8.toNat_inj, UInt8.toNat_ofNat']
      omega
    rw [List.length_cons, leNat, leBytes, hdiv, ih, hlow]

theorem leNat_lt : ∀ bytes : List UInt8, leNat bytes < 256 ^ bytes.length := by
  intro bytes
  induction bytes with
  | nil => simp [leNat]
  | cons b bytes ih =>
    have hb := b.toNat_lt
    rw [leNat, List.length_cons, pow_succ]
    omega

/-- A number as a signed integer of 32 bits. -/
def toInt32 (x : ℤ) : ℤ := x.bmod 4294967296

theorem toInt32_of_lt {x : ℤ} (hlow : -2 ^ 31 ≤ x) (hhigh : x < 2 ^ 31) : toInt32 x = x := by
  rw [toInt32, Int.bmod_def]
  omega

/-! ## Readers -/

/-- A reader takes a value off the front of a list of bytes, or fails. -/
abbrev Reader (ε α : Type) := StateT (List UInt8) (Except ε) α

section

variable {ε α β : Type}

/-- `r` takes `bytes` off the front and returns `x`. -/
def Reads (r : Reader ε α) (bytes : List UInt8) (x : α) : Prop :=
  ∀ rest, r (bytes ++ rest) = .ok (x, rest)

/-- `r` fails with `e` when `bytes` are at the front. -/
def Fails (r : Reader ε α) (bytes : List UInt8) (e : ε) : Prop :=
  ∀ rest, r (bytes ++ rest) = .error e

/-- What is read does not fail. -/
theorem Reads.not_fails {r : Reader ε α} {bytes : List UInt8} {x : α} {e : ε}
    (h : Reads r bytes x) : ¬ Fails r bytes e := by
  intro hfail
  cases (h []).symm.trans (hfail [])

/-- A reader that takes nothing. -/
theorem reads_pure (x : α) : Reads (pure x : Reader ε α) [] x := fun _ => rfl

/-- One thing after the other. -/
theorem Reads.bind {r : Reader ε α} {f : α → Reader ε β} {b c : List UInt8} {x : α} {y : β}
    (h₁ : Reads r b x) (h₂ : Reads (f x) c y) : Reads (r >>= f) (b ++ c) y := by
  intro rest
  show (r (b ++ c ++ rest) >>= fun p => f p.1 p.2) = _
  rw [List.append_assoc, h₁]
  exact h₂ rest

/-- The last thing, with the result put together from what was read. -/
theorem Reads.map {r : Reader ε α} {b : List UInt8} {x : α} {f : α → β} {y : β}
    (h : Reads r b x) (hy : f x = y) : Reads (r >>= fun x => pure (f x)) b y := by
  have hbind := h.bind (f := fun x => pure (f x)) (reads_pure (f x))
  rwa [List.append_nil, hy] at hbind

/-- A failure at the first thing. -/
theorem Fails.bind {r : Reader ε α} {f : α → Reader ε β} {b : List UInt8} (c : List UInt8)
    {e : ε} (h : Fails r b e) : Fails (r >>= f) (b ++ c) e := by
  intro rest
  show (r (b ++ c ++ rest) >>= fun p => f p.1 p.2) = _
  rw [List.append_assoc, h]
  rfl

/-- A failure after the first thing. -/
theorem Reads.bind_fails {r : Reader ε α} {f : α → Reader ε β} {b c : List UInt8} {x : α}
    {e : ε} (h₁ : Reads r b x) (h₂ : Fails (f x) c e) : Fails (r >>= f) (b ++ c) e := by
  intro rest
  show (r (b ++ c ++ rest) >>= fun p => f p.1 p.2) = _
  rw [List.append_assoc, h₁]
  exact h₂ rest

/-- Read `n` values, one after the other. -/
def many (r : Reader ε α) : ℕ → Reader ε (List α)
  | 0 => pure []
  | n + 1 => do
      let x ← r
      let l ← many r n
      pure (x :: l)

/-- **Reading a list.** -/
theorem Reads.many {r : Reader ε α} {write : β → List UInt8} {g : β → α} :
    ∀ (l : List β), (∀ x ∈ l, Reads r (write x) (g x)) →
      Reads (ByteCodec.many r l.length) (l.flatMap write) (l.map g) := by
  intro l
  induction l with
  | nil =>
    intro _
    exact reads_pure []
  | cons x l ih =>
    intro h
    rw [List.flatMap_cons]
    exact (h x List.mem_cons_self).bind
      ((ih fun y hy => h y (List.mem_cons_of_mem _ hy)).map rfl)

/-- A list fails at the first value that does. -/
theorem Fails.many {r : Reader ε α} {write : β → List UInt8} {g : β → α} {e : ε} :
    ∀ (l : List β), (∀ x ∈ l, Reads r (write x) (g x) ∨ Fails r (write x) e) →
      (∃ x ∈ l, Fails r (write x) e) →
      Fails (ByteCodec.many r l.length) (l.flatMap write) e := by
  intro l
  induction l with
  | nil =>
    rintro - ⟨x, hx, -⟩
    cases hx
  | cons x l ih =>
    rintro h ⟨z, hz, hfail⟩
    rw [List.flatMap_cons]
    rcases h x List.mem_cons_self with hx | hx
    · apply hx.bind_fails
      rcases List.mem_cons.mp hz with rfl | hz
      · exact absurd hfail hx.not_fails
      · have hl := ih (fun y hy => h y (List.mem_cons_of_mem _ hy)) ⟨z, hz, hfail⟩
        have hl' := hl.bind (f := fun l => pure (g x :: l)) []
        rwa [List.append_nil] at hl'
    · exact hx.bind _

/-- What was read tells where it ends. -/
theorem Reads.inj {r : Reader ε α} {a b s t : List UInt8} {x y : α} (h₁ : Reads r a x)
    (h₂ : Reads r b y) (h : a ++ s = b ++ t) : x = y ∧ s = t := by
  have hok : (Except.ok (x, s) : Except ε _) = .ok (y, t) := by
    rw [← h₁ s, h, h₂ t]
  exact Prod.mk.inj (Except.ok.inj hok)

/-- Values that are written one after the other, without their number. -/
theorem map_eq_of_flatMap_eq {r : Reader ε α} {write : β → List UInt8} {g : β → α}
    (hne : ∀ x, write x ≠ []) : ∀ l l' : List β, (∀ x ∈ l, Reads r (write x) (g x)) →
      (∀ x ∈ l', Reads r (write x) (g x)) → l.flatMap write = l'.flatMap write →
      l.map g = l'.map g := by
  intro l
  induction l with
  | nil =>
    intro l' _ _ h
    cases l' with
    | nil => rfl
    | cons y l' => exact absurd (List.append_eq_nil_iff.mp h.symm).1 (hne y)
  | cons x l ih =>
    intro l' hl hl' h
    cases l' with
    | nil => exact absurd (List.append_eq_nil_iff.mp h).1 (hne x)
    | cons y l' =>
      obtain ⟨hxy, htail⟩ :=
        (hl x List.mem_cons_self).inj (hl' y List.mem_cons_self) h
      rw [List.map_cons, List.map_cons, hxy, ih l' (fun z hz => hl z (List.mem_cons_of_mem _ hz))
        (fun z hz => hl' z (List.mem_cons_of_mem _ hz)) htail]

/-! ## What is accepted -/

/-- What `r` accepts is what `write` writes of a value with `P`. -/
def Accepts (r : Reader ε α) (write : α → List UInt8) (P : α → Prop) : Prop :=
  ∀ s x rest, r s = .ok (x, rest) → P x ∧ s = write x ++ rest

/-- Reading one thing after the other succeeds if both succeed. -/
theorem bind_eq_ok {r : Reader ε α} {f : α → Reader ε β} {s rest : List UInt8} {y : β}
    (h : (r >>= f) s = .ok (y, rest)) : ∃ x t, r s = .ok (x, t) ∧ f x t = .ok (y, rest) := by
  change (r s >>= fun p => f p.1 p.2) = .ok (y, rest) at h
  cases hr : r s with
  | error e =>
    rw [hr] at h
    cases h
  | ok p =>
    rw [hr] at h
    exact ⟨p.1, p.2, rfl, h⟩

theorem pure_eq_ok {s rest : List UInt8} {x y : α}
    (h : (pure x : Reader ε α) s = .ok (y, rest)) : y = x ∧ rest = s := by
  obtain ⟨rfl, rfl⟩ := Prod.mk.inj (Except.ok.inj h)
  exact ⟨rfl, rfl⟩

/-- A list that is accepted. -/
theorem Accepts.many {r : Reader ε α} {write : α → List UInt8} {P : α → Prop}
    (hr : Accepts r write P) : ∀ (n : ℕ) (s rest : List UInt8) (l : List α),
      ByteCodec.many r n s = .ok (l, rest) →
      l.length = n ∧ (∀ x ∈ l, P x) ∧ s = l.flatMap write ++ rest := by
  intro n
  induction n with
  | zero =>
    intro s rest l h
    obtain ⟨rfl, rfl⟩ := pure_eq_ok h
    exact ⟨rfl, by simp, rfl⟩
  | succ n ih =>
    intro s rest l h
    obtain ⟨x, t, hx, h⟩ := bind_eq_ok h
    obtain ⟨l', u, hl', h⟩ := bind_eq_ok h
    obtain ⟨rfl, rfl⟩ := pure_eq_ok h
    obtain ⟨hPx, rfl⟩ := hr s x t hx
    obtain ⟨rfl, hP, rfl⟩ := ih t rest l' hl'
    refine ⟨rfl, ?_, ?_⟩
    · intro y hy
      rcases List.mem_cons.mp hy with rfl | hy
      · exact hPx
      · exact hP y hy
    · rw [List.flatMap_cons, List.append_assoc]

end

end ByteCodec
