/-
# Folding over the entries of a map

A loop over the entries of a map that touches, for each entry, only what belongs to the
entry's key.  The order of the entries does not matter then: what the loop leaves at a
key depends on the entry with that key alone (`foldl_entries`).

A loop over keys (`foldl_keys`) is alike.

`total` adds up a quantity over the entries, and follows the map as entries come and go.
-/
import Mathlib.Algebra.BigOperators.Group.Finset.Basic
import Mathlib.Algebra.Order.BigOperators.Group.List
import Mathlib.Algebra.Order.Ring.Int
import Mathlib.Data.List.AList

namespace Maps

variable {α β σ δ : Type*} [DecidableEq α]

/-- Let `f` change what is observed at the key of an entry by `g`, and nothing else.  Then
the whole loop changes what is observed at a key by `g` if there is an entry for it. -/
theorem foldl_entries (f : σ → (Σ _ : α, β) → σ) (obs : σ → α → δ) (g : α → β → δ → δ)
    (hself : ∀ s k v, obs (f s ⟨k, v⟩) k = g k v (obs s k))
    (hother : ∀ s k v k', k' ≠ k → obs (f s ⟨k, v⟩) k' = obs s k') :
    ∀ (l : List (Σ _ : α, β)), l.NodupKeys → ∀ (s : σ) (k : α),
      obs (l.foldl f s) k = (l.dlookup k).elim (obs s k) fun v => g k v (obs s k) := by
  intro l
  induction l with
  | nil =>
    intro _ s k
    rfl
  | cons e l ih =>
    obtain ⟨k', v⟩ := e
    intro hl s k
    rw [List.nodupKeys_cons] at hl
    rw [List.foldl_cons, ih hl.2]
    by_cases hk : k = k'
    · subst hk
      have hnone : l.dlookup k = none := List.dlookup_eq_none.mpr hl.1
      rw [hnone, List.dlookup_cons_eq]
      exact hself s k v
    · rw [List.dlookup_cons_ne _ _ hk, hother s k' v k hk]

/-- Let a step for a key change what is observed at the key by `g`, and nothing else, and let it make
no difference to do it again.  Then a loop over keys changes by `g` what is observed at each of
them. -/
theorem foldl_keys (f : σ → α → σ) (obs : σ → α → δ) (g : δ → δ)
    (hself : ∀ s k, obs (f s k) k = g (obs s k))
    (hother : ∀ s k k', k' ≠ k → obs (f s k) k' = obs s k') (hagain : ∀ d, g (g d) = g d) :
    ∀ (l : List α) (s : σ) (k : α),
      obs (l.foldl f s) k = if k ∈ l then g (obs s k) else obs s k := by
  intro l
  induction l with
  | nil =>
    intro s k
    rw [List.foldl_nil, if_neg List.not_mem_nil]
  | cons k' l ih =>
    intro s k
    rw [List.foldl_cons, ih]
    by_cases hk : k = k'
    · subst hk
      rw [hself, hagain, ite_self, if_pos List.mem_cons_self]
    · rw [hother s k' k hk]
      exact if_congr (by rw [List.mem_cons, or_iff_right hk]) rfl rfl

/-! ## Maps of values -/

section

variable {γ : Type*} (f : β → γ)

omit [DecidableEq α] in
theorem keys_map (l : List (Σ _ : α, β)) :
    (l.map fun e => (⟨e.1, f e.2⟩ : Σ _ : α, γ)).keys = l.keys := by
  rw [List.keys, List.keys, List.map_map]
  rfl

/-- The map with `f` applied to its values. -/
def mapValues (m : AList fun _ : α => β) : AList fun _ : α => γ where
  entries := m.entries.map fun e => ⟨e.1, f e.2⟩
  nodupKeys := by
    rw [List.NodupKeys, keys_map]
    exact m.nodupKeys

theorem dlookup_map (k : α) (l : List (Σ _ : α, β)) :
    (l.map fun e => (⟨e.1, f e.2⟩ : Σ _ : α, γ)).dlookup k = (l.dlookup k).map f := by
  induction l with
  | nil => rfl
  | cons e l ih =>
    obtain ⟨k', v⟩ := e
    rw [List.map_cons]
    by_cases hk : k = k'
    · subst hk
      rw [List.dlookup_cons_eq, List.dlookup_cons_eq]
      rfl
    · rw [List.dlookup_cons_ne _ _ hk, List.dlookup_cons_ne _ _ hk, ih]

theorem lookup_mapValues (k : α) (m : AList fun _ : α => β) :
    (mapValues f m).lookup k = (m.lookup k).map f :=
  dlookup_map f k m.entries

end

/-! ## Sums over the entries -/

/-- The sum of `f` over the entries of a map. -/
def total (f : α → β → ℤ) (m : AList fun _ : α => β) : ℤ :=
  (m.entries.map fun e => f e.1 e.2).sum

/-- What is added up for the entries that are there. -/
theorem total_congr {f g : α → β → ℤ} {m : AList fun _ : α => β}
    (h : ∀ k v, m.lookup k = some v → f k v = g k v) : total f m = total g m := by
  apply congrArg List.sum
  apply List.map_congr_left
  rintro ⟨k, v⟩ hmem
  exact h k v (AList.mem_lookup_iff.mpr hmem)

omit [DecidableEq α] in
theorem total_add (f g : α → β → ℤ) (m : AList fun _ : α => β) :
    total (fun k v => f k v + g k v) m = total f m + total g m :=
  List.sum_map_add

omit [DecidableEq α] in
theorem total_zero (m : AList fun _ : α => β) : total (fun _ _ => 0) m = 0 := by
  simp [total]

omit [DecidableEq α] in
theorem sum_total {ι : Type*} (s : Finset ι) (f : ι → α → β → ℤ) (m : AList fun _ : α => β) :
    ∑ i ∈ s, total (f i) m = total (fun k v => ∑ i ∈ s, f i k v) m := by
  classical
  induction s using Finset.induction_on with
  | empty =>
    simp only [Finset.sum_empty]
    exact (total_zero m).symm
  | insert i s hi ih =>
    simp only [Finset.sum_insert hi]
    rw [ih, total_add]

/-- What is left without the entry of a key, in the list of the entries. -/
theorem sum_kerase (f : α → β → ℤ) (k : α) : ∀ l : List (Σ _ : α, β),
    ((l.kerase k).map fun e => f e.1 e.2).sum
      = (l.map fun e => f e.1 e.2).sum - (l.dlookup k).elim 0 (f k) := by
  intro l
  induction l with
  | nil => rfl
  | cons e l ih =>
    obtain ⟨k', v⟩ := e
    by_cases hk : k = k'
    · subst hk
      have herase : List.kerase k (⟨k, v⟩ :: l) = l := by simp
      rw [herase, List.dlookup_cons_eq, List.map_cons, List.sum_cons]
      show _ = f k v + _ - f k v
      omega
    · have herase : List.kerase k (⟨k', v⟩ :: l) = ⟨k', v⟩ :: l.kerase k := by
        simp [hk]
      rw [herase, List.dlookup_cons_ne _ _ hk, List.map_cons, List.sum_cons, ih, List.map_cons,
        List.sum_cons]
      omega

theorem total_erase (f : α → β → ℤ) (k : α) (m : AList fun _ : α => β) :
    total f (m.erase k) = total f m - (m.lookup k).elim 0 (f k) :=
  sum_kerase f k m.entries

theorem total_insert (f : α → β → ℤ) (k : α) (v : β) (m : AList fun _ : α => β) :
    total f (m.insert k v) = total f m - (m.lookup k).elim 0 (f k) + f k v := by
  rw [total, AList.entries_insert, List.map_cons, List.sum_cons, sum_kerase]
  show f k v + (total f m - (m.lookup k).elim 0 (f k)) = _
  omega

/-- A sum of what is not negative is at least each of its terms. -/
theorem le_total {f : α → β → ℤ} (hf : ∀ k v, 0 ≤ f k v) {k : α} {v : β}
    {m : AList fun _ : α => β} (h : m.lookup k = some v) : f k v ≤ total f m := by
  have hrest : 0 ≤ total f (m.erase k) :=
    List.sum_nonneg fun x hx => by
      obtain ⟨e, -, rfl⟩ := List.mem_map.mp hx
      exact hf _ _
  rw [total_erase, h] at hrest
  exact Int.sub_nonneg.mp hrest

omit [DecidableEq α] in
theorem total_nonneg {f : α → β → ℤ} (hf : ∀ k v, 0 ≤ f k v) (m : AList fun _ : α => β) :
    0 ≤ total f m :=
  List.sum_nonneg fun x hx => by
    obtain ⟨e, -, rfl⟩ := List.mem_map.mp hx
    exact hf _ _

omit [DecidableEq α] in
/-- The sum of zeros and ones counts the entries. -/
theorem total_toInt (p : β → Bool) (m : AList fun _ : α => β) :
    total (fun _ v => (p v).toInt) m = (m.entries.countP fun e => p e.2 : ℕ) := by
  unfold total
  induction m.entries with
  | nil => rfl
  | cons e l ih =>
    rw [List.map_cons, List.sum_cons, ih, List.countP_cons]
    show (p e.2).toInt + _ = _
    by_cases h : p e.2 = true
    · rw [if_pos h, h, Bool.toInt_true]
      omega
    · rw [if_neg h, Bool.eq_false_iff.mpr h, Bool.toInt_false]
      omega

/-- The number of entries with `p`, when an entry is replaced. -/
theorem countP_insert (p : β → Bool) {k : α} {v : β} {m : AList fun _ : α => β}
    (h : m.lookup k = some v) (w : β) :
    ((m.insert k w).entries.countP fun e => p e.2 : ℕ) =
      ((m.entries.countP fun e => p e.2 : ℕ) : ℤ) - (p v).toInt + (p w).toInt := by
  rw [← total_toInt, ← total_toInt, total_insert, h]
  rfl

theorem countP_insert_of_none (p : β → Bool) {k : α} {m : AList fun _ : α => β}
    (h : m.lookup k = none) (w : β) :
    ((m.insert k w).entries.countP fun e => p e.2 : ℕ) =
      ((m.entries.countP fun e => p e.2 : ℕ) : ℤ) + (p w).toInt := by
  rw [← total_toInt, ← total_toInt, total_insert, h]
  show _ - 0 + (p w).toInt = _
  rw [Int.sub_zero]

theorem countP_erase (p : β → Bool) {k : α} {v : β} {m : AList fun _ : α => β}
    (h : m.lookup k = some v) :
    ((m.erase k).entries.countP fun e => p e.2 : ℕ) =
      ((m.entries.countP fun e => p e.2 : ℕ) : ℤ) - (p v).toInt := by
  rw [← total_toInt, ← total_toInt, total_erase, h]
  rfl

end Maps
