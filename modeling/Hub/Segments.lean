/-
# Reading a stream piece by piece

A reader of a stream keeps the symbols it has not used yet and takes items from their front:
`take s u` finds that the unread symbols `u` hold an item (and how many symbols it has), that
more are needed, or that reading is over.  `run` takes items as long as it finds some, and
`feed` appends a piece of the stream and runs.

A reader is `Stable` when symbols that arrive later do not change what it has found.  Then
only the stream counts, not how it is cut into pieces (`foldl_feed`).  `Along` says that a
condition holds at every attempt to take an item; it can be split in the same way.
-/
import Mathlib.Algebra.Order.Ring.Nat
import Mathlib.Data.List.Basic
import Mathlib.Tactic.Common

namespace Segments

/-- What an attempt to take an item finds. -/
inductive Taken (σ : Type*) where
  | more (s : σ)
  | halt (s : σ)
  | item (s : σ) (n : ℕ)

variable {σ β : Type*} (take : σ → List β → Taken σ)

/-- Take items, at most `n`: the state and the unread symbols, if reading goes on. -/
def drain : ℕ → σ → List β → σ × Option (List β)
  | 0, s, u => (s, some u)
  | n + 1, s, u =>
      match take s u with
      | .more s' => (s', some u)
      | .halt s' => (s', none)
      | .item s' k => drain n s' (u.drop k)

/-- Take all items. -/
def run (s : σ) (u : List β) : σ × Option (List β) := drain take u.length s u

/-- A piece of the stream arrives. -/
def feed (st : σ × Option (List β)) (x : List β) : σ × Option (List β) :=
  match st with
  | (s, none) => (s, none)
  | (s, some u) => run take s (u ++ x)

/-- `C` holds at every attempt to take an item, of at most `n`. -/
def Along (C : σ → List β → Prop) : ℕ → σ → List β → Prop
  | 0, _, _ => True
  | n + 1, s, u => C s u ∧
      match take s u with
      | .item s' k => Along C n s' (u.drop k)
      | _ => True

/-- `Along` can be evaluated. -/
instance decidableAlong (C : σ → List β → Prop) [∀ s u, Decidable (C s u)] :
    ∀ (n : ℕ) (s : σ) (u : List β), Decidable (Along take C n s u)
  | 0, _, _ => .isTrue trivial
  | n + 1, s, u =>
      match htake : take s u with
      | .more _ => decidable_of_iff (C s u) (by simp [Along, htake])
      | .halt _ => decidable_of_iff (C s u) (by simp [Along, htake])
      | .item s' k =>
          haveI := decidableAlong C n s' (u.drop k)
          decidable_of_iff (C s u ∧ Along take C n s' (u.drop k)) (by simp [Along, htake])

/-- What was found stays so when more symbols arrive, and an item has at least one symbol. -/
structure Stable : Prop where
  nil : ∀ s, take s [] = .more s
  more : ∀ {s u s'}, take s u = .more s' → ∀ v, take s' (u ++ v) = take s (u ++ v)
  halt : ∀ {s u s'}, take s u = .halt s' → ∀ v, take s (u ++ v) = .halt s'
  item : ∀ {s u s' n}, take s u = .item s' n →
    0 < n ∧ n ≤ u.length ∧ ∀ v, take s (u ++ v) = .item s' n

variable {take}

theorem Along.of_le {C : σ → List β → Prop} : ∀ {n m : ℕ} {s : σ} {u : List β}, n ≤ m →
    Along take C m s u → Along take C n s u := by
  intro n
  induction n with
  | zero =>
    intro m s u _ _
    trivial
  | succ n ih =>
    intro m s u hle h
    obtain ⟨m, rfl⟩ : ∃ k, m = k + 1 := ⟨m - 1, by omega⟩
    refine ⟨h.1, ?_⟩
    have htail := h.2
    cases htake : take s u with
    | more s' => trivial
    | halt s' => trivial
    | item s' k =>
      rw [htake] at htail
      exact ih (by omega) htail

variable (hst : Stable take)

include hst

/-- The bound on the items does not count, once it is the number of symbols. -/
theorem Stable.drain_eq_drain : ∀ {n m : ℕ} {s : σ} {u : List β}, u.length ≤ n → u.length ≤ m →
    drain take n s u = drain take m s u := by
  intro n
  induction n with
  | zero =>
    intro m s u hn _
    obtain rfl : u = [] := List.length_eq_zero_iff.mp (by omega)
    cases m with
    | zero => rfl
    | succ m => rw [drain, drain, hst.nil]
  | succ n ih =>
    intro m s u hn hm
    cases m with
    | zero =>
      obtain rfl : u = [] := List.length_eq_zero_iff.mp (by omega)
      rw [drain, drain, hst.nil]
    | succ m =>
      rw [drain, drain]
      cases htake : take s u with
      | more s' => rfl
      | halt s' => rfl
      | item s' k =>
        obtain ⟨hk, -, -⟩ := hst.item htake
        apply ih <;> rw [List.length_drop] <;> omega

/-- One attempt, and then the rest of the run. -/
theorem Stable.run_eq (s : σ) (u : List β) : run take s u =
    match take s u with
    | .more s' => (s', some u)
    | .halt s' => (s', none)
    | .item s' k => run take s' (u.drop k) := by
  have hone : run take s u = drain take (u.length + 1) s u :=
    hst.drain_eq_drain le_rfl (Nat.le_succ _)
  rw [hone, drain]
  cases htake : take s u with
  | more s' => rfl
  | halt s' => rfl
  | item s' k =>
    apply hst.drain_eq_drain
    · rw [List.length_drop]
      omega
    · exact le_rfl

/-- A run over a longer stretch is a run over its front, and then over what that leaves. -/
theorem Stable.run_append (v : List β) : ∀ (n : ℕ) (s : σ) (u : List β), u.length ≤ n →
    run take s (u ++ v) = feed take (run take s u) v := by
  intro n
  induction n with
  | zero =>
    intro s u hn
    obtain rfl : u = [] := List.length_eq_zero_iff.mp (by omega)
    rfl
  | succ n ih =>
    intro s u hn
    rw [hst.run_eq s u]
    cases htake : take s u with
    | more s' =>
      show _ = run take s' (u ++ v)
      rw [hst.run_eq s, hst.run_eq s', hst.more htake]
    | halt s' =>
      rw [hst.run_eq s, hst.halt htake]
      rfl
    | item s' k =>
      obtain ⟨hk, hle, hitem⟩ := hst.item htake
      have hshort : (u.drop k).length ≤ n := by
        rw [List.length_drop]
        omega
      rw [hst.run_eq s, hitem]
      show run take s' ((u ++ v).drop k) = feed take (run take s' (u.drop k)) v
      rw [List.drop_append_of_le_length hle, ih s' _ hshort]

theorem Stable.feed_feed (st : σ × Option (List β)) (x y : List β) :
    feed take (feed take st x) y = feed take st (x ++ y) := by
  rcases st with ⟨s, _ | u⟩
  · rfl
  · show feed take (run take s (u ++ x)) y = run take s (u ++ (x ++ y))
    rw [← hst.run_append y _ s (u ++ x) le_rfl, List.append_assoc]

/-- **Only the stream counts.** -/
theorem Stable.foldl_feed (st : σ × Option (List β)) : ∀ (pieces : List (List β)) (x : List β),
    pieces.foldl (feed take) (feed take st x) = feed take st (x ++ pieces.flatten) := by
  intro pieces
  induction pieces with
  | nil =>
    intro x
    rw [List.flatten_nil, List.append_nil]
    rfl
  | cons y pieces ih =>
    intro x
    rw [List.foldl_cons, hst.feed_feed, ih, List.flatten_cons, List.append_assoc]

section Along

variable {C : σ → List β → Prop}

theorem Stable.along_iff_along : ∀ {n m : ℕ} {s : σ} {u : List β}, u.length < n → u.length < m →
    (Along take C n s u ↔ Along take C m s u) := by
  intro n
  induction n with
  | zero =>
    intro m s u hn _
    omega
  | succ n ih =>
    intro m s u hn hm
    obtain ⟨m, rfl⟩ : ∃ k, m = k + 1 := ⟨m - 1, by omega⟩
    rw [Along, Along]
    cases htake : take s u with
    | more s' => exact Iff.rfl
    | halt s' => exact Iff.rfl
    | item s' k =>
      obtain ⟨hk, hle, -⟩ := hst.item htake
      refine and_congr_right fun _ => ih ?_ ?_ <;> rw [List.length_drop] <;> omega

/-- A condition that holds at every attempt of a run over `u ++ v` holds at every attempt of the
run over `u`, and of the one that goes on from there. -/
theorem Stable.along_append ( hprefix : ∀ s u v, C s (u ++ v) → C s u)
    (hmore : ∀ s u s' v, take s u = .more s' → C s (u ++ v) → C s' (u ++ v)) (v : List β) :
    ∀ (n : ℕ) (s : σ) (u : List β), u.length < n → Along take C ((u ++ v).length + 1) s (u ++ v) →
      Along take C n s u ∧
        ∀ s' u', run take s u = (s', some u') →
          Along take C ((u' ++ v).length + 1) s' (u' ++ v) := by
  intro n
  induction n with
  | zero =>
    intro s u hn
    omega
  | succ n ih =>
    intro s u hn halong
    rw [Along] at halong ⊢
    rw [hst.run_eq s u]
    cases htake : take s u with
    | more s' =>
      refine ⟨⟨ hprefix s u v halong.1, trivial⟩, fun s'' u' hrun => ?_⟩
      obtain ⟨rfl, rfl⟩ : s' = s'' ∧ u = u' := by simpa using hrun
      rw [Along, hst.more htake]
      exact ⟨hmore s u s' v htake halong.1, halong.2⟩
    | halt s' =>
      refine ⟨⟨ hprefix s u v halong.1, trivial⟩, fun s'' u' hrun => ?_⟩
      simp at hrun
    | item s' k =>
      obtain ⟨hk, hle, hitem⟩ := hst.item htake
      obtain ⟨hhead, htail⟩ := halong
      rw [hitem] at htail
      simp only [List.drop_append_of_le_length hle] at htail
      have hshort : (u.drop k).length < n := by
        rw [List.length_drop]
        omega
      have hrest : Along take C ((u.drop k ++ v).length + 1) s' (u.drop k ++ v) := by
        refine (hst.along_iff_along ?_ (Nat.lt_succ_self _)).mp htail
        rw [List.length_append, List.length_append, List.length_drop]
        omega
      obtain ⟨hfront, hnext⟩ := ih s' _ hshort hrest
      exact ⟨⟨ hprefix s u v hhead, hfront⟩, hnext⟩

end Along

end Segments
