/-
# Partial merkle trees

`CPartialMerkleTree` (`libs/server/merkleblock.h`, `libs/server/merkleblock.cpp`) proves to a
peer that some transactions are in a block.  `TraverseAndBuild` walks through the tree in
depth-first order and stores one bit for every node it visits: whether there is a matched
transaction below.  It stores a hash where it does not go any further.  `TraverseAndExtract`
walks through the same tree and takes the bits and the hashes in the order in which they
were stored.

A node is given by its height and its position; the leaves below it are a block of the
list of transactions (`PaddedTree.block`), and its hash is the root of a tree over them
(`calcHash_eq`).

* `sublist_of_extractMatches` : what a tree from a peer matches is in the block, if the tree
  has the merkle root of the block;
* `extractMatches_unserialize_serialize` : a tree that is sent to a peer arrives with the
  merkle root and the matched transactions.
-/
import Hub.Merkle
import Hub.Serialization

open PaddedTree

/-! ## The code -/

/-- `CPartialMerkleTree`. -/
structure CPartialMerkleTree (α : Type) where
  nTransactions : ℕ
  vBits : List Bool
  vHash : List α
  fBad : Bool

namespace CPartialMerkleTree

/-- `CalcTreeWidth`, in the arithmetic of `unsigned int`. -/
def calcTreeWidth (nTransactions height : ℕ) : ℕ :=
  (nTransactions + 2 ^ height - 1) % 2 ^ 32 / 2 ^ height

/-- The loop that looks for the height of the tree; the first argument bounds the rounds. -/
def heightLoop (nTransactions : ℕ) : ℕ → ℕ → ℕ
  | 0, nHeight => nHeight
  | rounds + 1, nHeight =>
      if calcTreeWidth nTransactions nHeight > 1 then heightLoop nTransactions rounds (nHeight + 1)
      else nHeight

/-- The height of the tree.  The width is at most one from height 31 on. -/
def treeHeight (nTransactions : ℕ) : ℕ := heightLoop nTransactions 32 0

variable {α : Type} [Inhabited α]

/-- `CalcHash`. -/
def calcHash (Hash : α → α → α) (nTransactions : ℕ) (vTxid : List α) : ℕ → ℕ → α
  | 0, pos => vTxid.getD pos default
  | height + 1, pos =>
      let left := calcHash Hash nTransactions vTxid height (pos * 2)
      let right :=
        if pos * 2 + 1 < calcTreeWidth nTransactions height then
          calcHash Hash nTransactions vTxid height (pos * 2 + 1)
        else left
      Hash left right

/-- The loop over the leaves below a node: is one of them matched? -/
def parentOfMatch (nTransactions : ℕ) (vMatch : List Bool) (height pos : ℕ) : Bool :=
  (((vMatch.take nTransactions).drop (pos * 2 ^ height)).take (2 ^ height)).any id

/-- `TraverseAndBuild`. -/
def traverseAndBuild (Hash : α → α → α) (vTxid : List α) (vMatch : List Bool) :
    ℕ → ℕ → CPartialMerkleTree α → CPartialMerkleTree α
  | 0, pos, t =>
      { t with
        vBits := t.vBits ++ [parentOfMatch t.nTransactions vMatch 0 pos]
        vHash := t.vHash ++ [calcHash Hash t.nTransactions vTxid 0 pos] }
  | height + 1, pos, t =>
      let fParentOfMatch := parentOfMatch t.nTransactions vMatch (height + 1) pos
      let t := { t with vBits := t.vBits ++ [fParentOfMatch] }
      if !fParentOfMatch then
        { t with vHash := t.vHash ++ [calcHash Hash t.nTransactions vTxid (height + 1) pos] }
      else
        let t := traverseAndBuild Hash vTxid vMatch height (pos * 2) t
        if pos * 2 + 1 < calcTreeWidth t.nTransactions height then
          traverseAndBuild Hash vTxid vMatch height (pos * 2 + 1) t
        else t

/-- The constructor of `CPartialMerkleTree` from a list of transactions and a mask. -/
def build (Hash : α → α → α) (vTxid : List α) (vMatch : List Bool) : CPartialMerkleTree α :=
  let nTransactions := vTxid.length % 2 ^ 32
  traverseAndBuild Hash vTxid vMatch (treeHeight nTransactions) 0 ⟨nTransactions, [], [], false⟩

/-- What `TraverseAndExtract` changes. -/
structure Extraction (α : Type) where
  nBitsUsed : ℕ
  nHashUsed : ℕ
  vMatch : List α
  fBad : Bool

/-- Use the next stored hash; `matched` says whether it is a matched transaction. -/
def takeHash (t : CPartialMerkleTree α) (matched : Bool) (e : Extraction α) :
    α × Extraction α :=
  match t.vHash[e.nHashUsed]? with
  | none => (default, { e with fBad := true })
  | some hash => (hash, { e with
      nHashUsed := e.nHashUsed + 1
      vMatch := if matched then e.vMatch ++ [hash] else e.vMatch })

variable [DecidableEq α]

/-- `TraverseAndExtract`. -/
def traverseAndExtract (Hash : α → α → α) (t : CPartialMerkleTree α) :
    ℕ → ℕ → Extraction α → α × Extraction α
  | 0, _, e =>
      match t.vBits[e.nBitsUsed]? with
      | none => (default, { e with fBad := true })
      | some fParentOfMatch =>
          t.takeHash fParentOfMatch { e with nBitsUsed := e.nBitsUsed + 1 }
  | height + 1, pos, e =>
      match t.vBits[e.nBitsUsed]? with
      | none => (default, { e with fBad := true })
      | some false => t.takeHash false { e with nBitsUsed := e.nBitsUsed + 1 }
      | some true =>
          let (left, e) := traverseAndExtract Hash t height (pos * 2)
            { e with nBitsUsed := e.nBitsUsed + 1 }
          if pos * 2 + 1 < calcTreeWidth t.nTransactions height then
            let (right, e) := traverseAndExtract Hash t height (pos * 2 + 1) e
            (Hash left right, { e with fBad := e.fBad || right == left })
          else (Hash left left, e)

/-- `ExtractMatches`: the root, or the null hash, and the matched transactions. -/
def extractMatches (Hash : α → α → α) (t : CPartialMerkleTree α) : α × List α :=
  if t.nTransactions = 0 then (default, [])
  else if t.vHash.length > t.nTransactions * 2 % 2 ^ 32 then (default, [])
  else if t.vBits.length < t.vHash.length then (default, [])
  else
    let (hashMerkleRoot, e) :=
      traverseAndExtract Hash t (treeHeight t.nTransactions) 0 ⟨0, 0, [], t.fBad⟩
    if e.fBad then (default, e.vMatch)
    else if (e.nBitsUsed + 7) / 8 ≠ (t.vBits.length + 7) / 8 then (default, e.vMatch)
    else if e.nHashUsed ≠ t.vHash.length then (default, e.vMatch)
    else (hashMerkleRoot, e.vMatch)

/-! ## The shape of the tree -/

section Shape

variable {n : ℕ}

/-- The nodes of a level are those with a leaf below them. -/
theorem lt_calcTreeWidth_iff (hn : n < 2 ^ 31) {height : ℕ} (hh : height ≤ 31) {pos : ℕ} :
    pos < calcTreeWidth n height ↔ pos * 2 ^ height < n := by
  have hpos : 0 < 2 ^ height := by positivity
  have hpow : 2 ^ height ≤ 2 ^ 31 := Nat.pow_le_pow_right (by omega) hh
  rw [calcTreeWidth, Nat.mod_eq_of_lt (by omega), Nat.lt_iff_add_one_le,
    Nat.le_div_iff_mul_le hpos, add_mul, one_mul]
  omega

theorem heightLoop_spec (hn : n < 2 ^ 31) : ∀ (rounds nHeight : ℕ), 32 ≤ nHeight + rounds →
    nHeight ≤ 31 → 2 ^ nHeight < 2 * n →
    n ≤ 2 ^ heightLoop n rounds nHeight ∧ 2 ^ heightLoop n rounds nHeight < 2 * n ∧
      heightLoop n rounds nHeight ≤ 31 := by
  intro rounds
  induction rounds with
  | zero =>
    intro nHeight hrounds hle
    omega
  | succ rounds ih =>
    intro nHeight hrounds hle hlt
    have hwidth : calcTreeWidth n nHeight > 1 ↔ 1 * 2 ^ nHeight < n :=
      lt_calcTreeWidth_iff hn hle
    rw [one_mul] at hwidth
    rw [heightLoop]
    by_cases hw : calcTreeWidth n nHeight > 1
    · rw [if_pos hw]
      have hlong := hwidth.mp hw
      have hne : nHeight ≠ 31 := by
        rintro rfl
        omega
      exact ih (nHeight + 1) (by omega) (by omega) (by rw [pow_succ]; omega)
    · rw [if_neg hw]
      exact ⟨by rw [hwidth] at hw; omega, hlt, hle⟩

/-- The tree is as high as it has to be. -/
theorem treeHeight_spec (hpos : 0 < n) (hn : n < 2 ^ 31) :
    n ≤ 2 ^ treeHeight n ∧ 2 ^ treeHeight n < 2 * n ∧ treeHeight n ≤ 31 :=
  heightLoop_spec hn 32 0 (by omega) (by omega) (by omega)

end Shape

/-- A block whose right half is empty is its left half. -/
theorem block_succ_of_le {β : Type} {l : List β} {height pos : ℕ}
    (h : l.length ≤ (pos * 2 + 1) * 2 ^ height) :
    block (height + 1) pos l = block height (pos * 2) l := by
  have hright : block height (2 * pos + 1) l = [] := by
    rw [block, List.drop_eq_nil_of_le, List.take_nil]
    rwa [mul_comm 2 pos]
  rw [block_succ, hright, List.append_nil, mul_comm 2 pos]

/-- A block is its left half and its right half. -/
theorem block_succ_eq {β : Type} (l : List β) (height pos : ℕ) :
    block (height + 1) pos l = block height (pos * 2) l ++ block height (pos * 2 + 1) l := by
  rw [block_succ, mul_comm 2 pos]

omit [DecidableEq α] in
/-- **The hash of a node** is the root of the tree over the leaves below it. -/
theorem calcHash_eq (Hash : α → α → α) {l : List α} (hn : l.length < 2 ^ 31) :
    ∀ (height pos : ℕ), height ≤ 31 → pos * 2 ^ height < l.length →
      calcHash Hash l.length l height pos = root Hash height (block height pos l) := by
  intro height
  induction height with
  | zero =>
    intro pos _ hpos
    rw [pow_zero, mul_one] at hpos
    rw [calcHash, root, block, pow_zero, mul_one, List.drop_eq_getElem_cons hpos,
      List.getD_eq_getElem _ _ hpos]
    rfl
  | succ height ih =>
    intro pos hh hpos
    have hp : 0 < 2 ^ height := by positivity
    have hpos' : pos * 2 * 2 ^ height < l.length := by
      rw [pow_succ] at hpos
      calc pos * 2 * 2 ^ height = pos * (2 ^ height * 2) := by ring
        _ < l.length := hpos
    rw [calcHash, ih _ (by omega) hpos']
    by_cases hright : pos * 2 + 1 < calcTreeWidth l.length height
    · have hlt := (lt_calcTreeWidth_iff hn (by omega)).mp hright
      have hleft : (block height (pos * 2) l).length = 2 ^ height := length_block (by omega)
      have hrest : block height (pos * 2 + 1) l ≠ [] := by
        rw [block, ← List.length_pos_iff, List.length_take, List.length_drop]
        omega
      have hrest' := List.length_pos_iff.mpr hrest
      simp only [if_pos hright]
      rw [ih _ (by omega) hlt, block_succ_eq, root, if_pos (by rw [List.length_append]; omega),
        List.take_left' hleft, List.drop_left' hleft]
    · have hle := (not_congr (lt_calcTreeWidth_iff hn (by omega))).mp hright
      simp only [if_neg hright]
      rw [block_succ_of_le (by omega), root, if_neg]
      rw [block, List.length_take]
      omega

/-- The hash at the top is the merkle root. -/
theorem computeMerkleRoot_eq_calcHash (Hash : α → α → α) {l : List α} (hne : l ≠ [])
    (hn : l.length < 2 ^ 31) :
    ∃ mutated, Merkle.computeMerkleRoot Hash l
      = some (calcHash Hash l.length l (treeHeight l.length) 0, mutated) := by
  have hpos := List.length_pos_iff.mpr hne
  obtain ⟨hle, hlt, hh⟩ := treeHeight_spec hpos hn
  obtain ⟨d, mutated, branch, hrun, hd, hd', -⟩ :=
    Merkle.merkleComputation_spec Hash hne hn (2 ^ 32 - 1) false
  -- both heights are the least one at which all leaves are below one node
  have hdepth : treeHeight l.length = d := by
    have hlt₁ : 2 ^ treeHeight l.length < 2 ^ (d + 1) := by
      rw [pow_succ]
      omega
    have hlt₂ : 2 ^ d < 2 ^ (treeHeight l.length + 1) := by
      rw [pow_succ]
      omega
    have h₁ := (Nat.pow_lt_pow_iff_right (by omega)).mp hlt₁
    have h₂ := (Nat.pow_lt_pow_iff_right (by omega)).mp hlt₂
    omega
  have hall : block (treeHeight l.length) 0 l = l := by
    rw [block, zero_mul, List.drop_zero, List.take_of_length_le hle]
  refine ⟨mutated, ?_⟩
  rw [Merkle.computeMerkleRoot, hrun, calcHash_eq Hash hn _ 0 hh (by omega), hall, hdepth]
  rfl

/-! ## Soundness -/

omit [DecidableEq α] in
theorem takeHash_vMatch (t : CPartialMerkleTree α) (matched : Bool) (e : Extraction α) :
    (t.takeHash matched e).2.vMatch = e.vMatch ∨
      matched = true ∧ (t.takeHash matched e).2.vMatch = e.vMatch ++ [(t.takeHash matched e).1] := by
  unfold takeHash
  cases t.vHash[e.nHashUsed]? with
  | none => exact .inl rfl
  | some hash =>
    cases matched with
    | false => exact .inl rfl
    | true => exact .inr ⟨rfl, rfl⟩

/-- **What a node matches.**  If the hash that is extracted for a node is the hash of the
node, then what is matched on the way are leaves below the node. -/
theorem sublist_of_traverseAndExtract {Hash : α → α → α} (hinj : Function.Injective2 Hash)
    {l : List α} (hn : l.length < 2 ^ 31) {t : CPartialMerkleTree α}
    (ht : t.nTransactions = l.length) :
    ∀ (height pos : ℕ) (e : Extraction α), height ≤ 31 → pos * 2 ^ height < l.length →
      (traverseAndExtract Hash t height pos e).1 = calcHash Hash l.length l height pos →
      ∃ matched, (traverseAndExtract Hash t height pos e).2.vMatch = e.vMatch ++ matched ∧
        matched.Sublist (block height pos l) := by
  intro height
  induction height with
  | zero =>
    intro pos e _ hpos hhash
    rw [pow_zero, mul_one] at hpos
    have hblock : block 0 pos l = [l.getD pos default] := by
      rw [block, pow_zero, mul_one, List.drop_eq_getElem_cons hpos,
        List.getD_eq_getElem _ _ hpos]
      rfl
    rw [traverseAndExtract] at hhash ⊢
    cases hbit : t.vBits[e.nBitsUsed]? with
    | none => exact ⟨[], by simp, List.nil_sublist _⟩
    | some fParentOfMatch =>
      simp only [hbit] at hhash ⊢
      rcases t.takeHash_vMatch fParentOfMatch { e with nBitsUsed := e.nBitsUsed + 1 }
        with hsame | ⟨-, hpush⟩
      · exact ⟨[], by rw [hsame, List.append_nil], List.nil_sublist _⟩
      · refine ⟨_, hpush, ?_⟩
        rw [hhash, hblock]
        exact List.Sublist.refl _
  | succ height ih =>
    intro pos e hh hpos hhash
    have hpos' : pos * 2 * 2 ^ height < l.length := by
      rw [pow_succ] at hpos
      calc pos * 2 * 2 ^ height = pos * (2 ^ height * 2) := by ring
        _ < l.length := hpos
    rw [traverseAndExtract] at hhash ⊢
    cases hbit : t.vBits[e.nBitsUsed]? with
    | none => exact ⟨[], by simp, List.nil_sublist _⟩
    | some fParentOfMatch =>
      simp only [hbit] at hhash ⊢
      cases fParentOfMatch with
      | false =>
        -- the walk stops here, and nothing is matched
        rcases t.takeHash_vMatch false { e with nBitsUsed := e.nBitsUsed + 1 }
          with hsame | ⟨hfalse, -⟩
        · exact ⟨[], by simp only [hsame, List.append_nil], List.nil_sublist _⟩
        · cases hfalse
      | true =>
        simp only at hhash ⊢
        rw [calcHash] at hhash
        by_cases hright : pos * 2 + 1 < calcTreeWidth l.length height
        · have hlt := (lt_calcTreeWidth_iff hn (by omega)).mp hright
          simp only [ht, if_pos hright] at hhash ⊢
          obtain ⟨hl, hr⟩ := hinj hhash
          obtain ⟨ml, hml, hsubl⟩ := ih (pos * 2) _ (by omega) hpos' hl
          obtain ⟨mr, hmr, hsubr⟩ := ih (pos * 2 + 1) _ (by omega) hlt hr
          refine ⟨ml ++ mr, ?_, ?_⟩
          · rw [hmr, hml, List.append_assoc]
          · rw [block_succ_eq]
            exact hsubl.append hsubr
        · have hle := (not_congr (lt_calcTreeWidth_iff hn (by omega))).mp hright
          simp only [ht, if_neg hright] at hhash ⊢
          obtain ⟨ml, hml, hsubl⟩ := ih (pos * 2) _ (by omega) hpos' (hinj hhash).1
          refine ⟨ml, hml, ?_⟩
          rwa [block_succ_of_le (by omega)]

/-- A root that is not null comes from the walk. -/
theorem extractMatches_of_ne_default {Hash : α → α → α} {t : CPartialMerkleTree α}
    (h : (t.extractMatches Hash).1 ≠ default) :
    t.extractMatches Hash
      = ((traverseAndExtract Hash t (treeHeight t.nTransactions) 0 ⟨0, 0, [], t.fBad⟩).1,
        (traverseAndExtract Hash t (treeHeight t.nTransactions) 0 ⟨0, 0, [], t.fBad⟩).2.vMatch) := by
  unfold extractMatches at h ⊢
  simp only at h ⊢
  split_ifs at h ⊢ with h₁ h₂ h₃ h₄ h₅ h₆
  all_goals first
    | exact absurd rfl h
    | rfl

/-- **Soundness.**  Let a tree from a peer be for as many transactions as a block has, and
let `ExtractMatches` return the merkle root of the block.  If that is not the null hash, by
which `ExtractMatches` reports a failure, then the matched transactions are transactions of
the block, in the order of the block. -/
theorem sublist_of_extractMatches {Hash : α → α → α} (hinj : Function.Injective2 Hash)
    (vTxid : List α) (hlen : vTxid.length < 2 ^ 31) (t : CPartialMerkleTree α)
    (ht : t.nTransactions = vTxid.length) (merkleRoot : α) (mutated : Bool)
    (hroot : Merkle.computeMerkleRoot Hash vTxid = some (merkleRoot, mutated))
    (hnull : vTxid ≠ [] → merkleRoot ≠ default)
    (h : (t.extractMatches Hash).1 = merkleRoot) :
    (t.extractMatches Hash).2.Sublist vTxid := by
  by_cases hne : vTxid = []
  · rw [extractMatches, if_pos (by rw [ht, hne]; rfl)]
    exact List.nil_sublist _
  · have hpos := List.length_pos_iff.mpr hne
    obtain ⟨hle, -, hh⟩ := treeHeight_spec hpos hlen
    obtain ⟨m, hm⟩ := computeMerkleRoot_eq_calcHash Hash hne hlen
    rw [hroot, Option.some.injEq, Prod.mk.injEq] at hm
    have hwalk := extractMatches_of_ne_default (h ▸ hnull hne : (t.extractMatches Hash).1 ≠ default)
    rw [hwalk, ht] at h
    obtain ⟨matched, hmatched, hsub⟩ := sublist_of_traverseAndExtract hinj hlen ht
      (treeHeight vTxid.length) 0 ⟨0, 0, [], t.fBad⟩ hh (by omega) (h.trans hm.1)
    rw [hwalk, ht]
    simp only at hmatched ⊢
    rw [hmatched, List.nil_append]
    rwa [block, zero_mul, List.drop_zero, List.take_of_length_le hle] at hsub

/-- A tree that fails after it matched `1`, for a block whose merkle root is the null hash. -/
theorem not_sublist_nullRoot :
    let t : CPartialMerkleTree (FreeMagma ℕ) :=
      ⟨1, [true, false, false, false, false, false, false, false], [.of 1, .of 2], false⟩
    Function.Injective2 (FreeMagma.mul (α := ℕ)) ∧ t.nTransactions = [FreeMagma.of 0].length ∧
      Merkle.computeMerkleRoot FreeMagma.mul [.of 0]
        = some ((t.extractMatches FreeMagma.mul).1, false) ∧
      ∃ x ∈ (t.extractMatches FreeMagma.mul).2, x ∉ [FreeMagma.of 0] := by
  refine ⟨Merkle.injective2_mul, rfl, by decide, .of 1, by decide, by decide⟩

/-- A tree for three transactions in which the second one is matched. -/
theorem sublist_of_extractMatches_second :
    let t : CPartialMerkleTree (FreeMagma ℕ) :=
      ⟨3, [true, true, false, true, false, false, false, false],
        [.of 1, .of 2, .mul (.of 3) (.of 3)], false⟩
    (t.extractMatches FreeMagma.mul).2 = [.of 2] ∧
      (t.extractMatches FreeMagma.mul).2.Sublist [.of 1, .of 2, .of 3] :=
  ⟨by decide, sublist_of_extractMatches Merkle.injective2_mul [.of 1, .of 2, .of 3] (by simp) _ rfl
    (.mul (.mul (.of 1) (.of 2)) (.mul (.of 3) (.of 3))) false (by decide) (by simp) (by decide)⟩

/-! ## Building and extracting -/

section Build

variable (Hash : α → α → α) (vTxid : List α) (vMatch : List Bool)

/-- The bits that are stored for the nodes from one node down. -/
def nodeBits (n : ℕ) (vMatch : List Bool) : ℕ → ℕ → List Bool
  | 0, pos => [parentOfMatch n vMatch 0 pos]
  | height + 1, pos =>
      if parentOfMatch n vMatch (height + 1) pos then
        true :: (nodeBits n vMatch height (pos * 2) ++
          if pos * 2 + 1 < calcTreeWidth n height then nodeBits n vMatch height (pos * 2 + 1)
          else [])
      else [false]

/-- The hashes that are stored for the nodes from one node down. -/
def nodeHashes (n : ℕ) : ℕ → ℕ → List α
  | 0, pos => [calcHash Hash n vTxid 0 pos]
  | height + 1, pos =>
      if parentOfMatch n vMatch (height + 1) pos then
        nodeHashes n height (pos * 2) ++
          if pos * 2 + 1 < calcTreeWidth n height then nodeHashes n height (pos * 2 + 1) else []
      else [calcHash Hash n vTxid (height + 1) pos]

omit [DecidableEq α] in
/-- **What is stored.** -/
theorem traverseAndBuild_eq : ∀ (height pos : ℕ) (t : CPartialMerkleTree α),
    traverseAndBuild Hash vTxid vMatch height pos t =
      { t with
        vBits := t.vBits ++ nodeBits t.nTransactions vMatch height pos
        vHash := t.vHash ++ nodeHashes Hash vTxid vMatch t.nTransactions height pos } := by
  intro height
  induction height with
  | zero =>
    intro pos t
    rfl
  | succ height ih =>
    intro pos t
    rw [traverseAndBuild, nodeBits, nodeHashes]
    cases hmatch : parentOfMatch t.nTransactions vMatch (height + 1) pos with
    | false => simp
    | true =>
      simp only [Bool.not_true, Bool.false_eq_true, if_false, if_true, ih]
      split
      · simp
      · simp

omit [DecidableEq α] in
/-- The tree that the constructor builds. -/
theorem build_eq (hn : vTxid.length < 2 ^ 31) :
    build Hash vTxid vMatch =
      ⟨vTxid.length, nodeBits vTxid.length vMatch (treeHeight vTxid.length) 0,
        nodeHashes Hash vTxid vMatch vTxid.length (treeHeight vTxid.length) 0, false⟩ := by
  have hmod : vTxid.length % 2 ^ 32 = vTxid.length := Nat.mod_eq_of_lt (by omega)
  rw [build, hmod, traverseAndBuild_eq]
  rfl

end Build

/-- The transactions that a mask selects. -/
def select {β : Type} (l : List (β × Bool)) : List β := (l.filter (·.2)).map (·.1)

theorem select_append {β : Type} (l₁ l₂ : List (β × Bool)) :
    select (l₁ ++ l₂) = select l₁ ++ select l₂ := by
  rw [select, List.filter_append, List.map_append, select, select]

section Extract

variable {Hash : α → α → α} {vTxid : List α} {vMatch : List Bool}

omit [Inhabited α] [DecidableEq α] in
theorem parentOfMatch_eq (hmask : vMatch.length = vTxid.length) (height pos : ℕ) :
    parentOfMatch vTxid.length vMatch height pos = (block height pos vMatch).any id := by
  rw [parentOfMatch, ← hmask, List.take_length, block]

omit [Inhabited α] [DecidableEq α] in
/-- Nothing is selected below a node without a match. -/
theorem select_block_eq_nil (hmask : vMatch.length = vTxid.length) {height pos : ℕ}
    (h : parentOfMatch vTxid.length vMatch height pos = false) :
    select (block height pos (vTxid.zip vMatch)) = [] := by
  rw [parentOfMatch_eq hmask, List.any_eq_false] at h
  rw [select, List.map_eq_nil_iff, List.filter_eq_nil_iff]
  intro x hx
  have hzip : block height pos (vTxid.zip vMatch)
      = (block height pos vTxid).zip (block height pos vMatch) := by
    rw [block, block, block, List.zip_eq_zipWith, List.drop_zipWith, List.take_zipWith,
      List.zip_eq_zipWith]
  rw [hzip] at hx
  exact h _ (List.of_mem_zip (show (x.1, x.2) ∈ _ from hx)).2

omit [DecidableEq α] in
/-- The one leaf below a node of height 0. -/
theorem select_block_zero (hmask : vMatch.length = vTxid.length) {pos : ℕ}
    (hpos : pos < vTxid.length) :
    select (block 0 pos (vTxid.zip vMatch)) =
      if parentOfMatch vTxid.length vMatch 0 pos then [vTxid.getD pos default] else [] := by
  have hzip : pos < (vTxid.zip vMatch).length := by
    rw [List.length_zip]
    omega
  have hblock : block 0 pos (vTxid.zip vMatch) = [(vTxid.zip vMatch)[pos]] := by
    rw [block, pow_zero, mul_one, List.drop_eq_getElem_cons hzip]
    rfl
  have hmatch : parentOfMatch vTxid.length vMatch 0 pos = vMatch[pos] := by
    have hdrop : vMatch.drop pos = vMatch[pos] :: vMatch.drop (pos + 1) :=
      List.drop_eq_getElem_cons (by omega)
    rw [parentOfMatch_eq hmask, block, pow_zero, mul_one, hdrop]
    show (vMatch[pos] || false) = vMatch[pos]
    rw [Bool.or_false]
  rw [hblock, hmatch, List.getElem_zip, List.getD_eq_getElem _ _ hpos]
  cases vMatch[pos] <;> simp [select]

/-- Neighbours have different hashes. -/
def SiblingsDiffer (Hash : α → α → α) (vTxid : List α) : Prop :=
  ∀ height pos, height < treeHeight vTxid.length →
    pos * 2 + 1 < calcTreeWidth vTxid.length height →
    calcHash Hash vTxid.length vTxid height (pos * 2 + 1)
      ≠ calcHash Hash vTxid.length vTxid height (pos * 2)

/-- The first element of what is left. -/
theorem getElem?_of_drop_eq_cons {β : Type} {l rest : List β} {k : ℕ} {x : β}
    (h : l.drop k = x :: rest) : l[k]? = some x ∧ l.drop (k + 1) = rest := by
  constructor
  · have hget : (l.drop k)[0]? = some x := by rw [h]; rfl
    rwa [List.getElem?_drop, Nat.add_zero] at hget
  · rw [← List.drop_drop, h]
    rfl

/-- Behind what is taken off the front of what is left. -/
theorem drop_of_drop_eq_append {β : Type} {l front rest : List β} {k : ℕ}
    (h : l.drop k = front ++ rest) : l.drop (k + front.length) = rest := by
  rw [← List.drop_drop, h, List.drop_left]

/-- **What is extracted.**  Where the bits and the hashes of a node come next, the walk takes
them, returns the hash of the node and matches the selected leaves below it. -/
theorem traverseAndExtract_eq (hn : vTxid.length < 2 ^ 31)
    (hmask : vMatch.length = vTxid.length) (hdiff : SiblingsDiffer Hash vTxid)
    {t : CPartialMerkleTree α} (ht : t.nTransactions = vTxid.length) :
    ∀ (height pos : ℕ) (e : Extraction α) (bits : List Bool) (hashes : List α),
      height ≤ treeHeight vTxid.length → pos * 2 ^ height < vTxid.length →
      t.vBits.drop e.nBitsUsed = nodeBits vTxid.length vMatch height pos ++ bits →
      t.vHash.drop e.nHashUsed = nodeHashes Hash vTxid vMatch vTxid.length height pos ++ hashes →
      traverseAndExtract Hash t height pos e =
        (calcHash Hash vTxid.length vTxid height pos,
          ⟨e.nBitsUsed + (nodeBits vTxid.length vMatch height pos).length,
            e.nHashUsed + (nodeHashes Hash vTxid vMatch vTxid.length height pos).length,
            e.vMatch ++ select (block height pos (vTxid.zip vMatch)), e.fBad⟩) := by
  intro height
  induction height with
  | zero =>
    intro pos e bits hashes _ hpos hbits hhashes
    rw [pow_zero, mul_one] at hpos
    rw [nodeBits, List.singleton_append] at hbits
    rw [nodeHashes, List.singleton_append] at hhashes
    obtain ⟨hbit, -⟩ := getElem?_of_drop_eq_cons hbits
    obtain ⟨hhash, -⟩ := getElem?_of_drop_eq_cons hhashes
    rw [traverseAndExtract]
    simp only [hbit, takeHash, hhash, select_block_zero hmask hpos]
    rw [calcHash, nodeBits, nodeHashes]
    cases parentOfMatch vTxid.length vMatch 0 pos <;> simp
  | succ height ih =>
    intro pos e bits hashes hh hpos hbits hhashes
    have hmax := (treeHeight_spec (by omega) hn).2.2
    have hpos' : pos * 2 * 2 ^ height < vTxid.length := by
      rw [pow_succ] at hpos
      calc pos * 2 * 2 ^ height = pos * (2 ^ height * 2) := by ring
        _ < vTxid.length := hpos
    rw [nodeBits] at hbits ⊢
    rw [nodeHashes] at hhashes ⊢
    rw [traverseAndExtract]
    cases hmatch : parentOfMatch vTxid.length vMatch (height + 1) pos with
    | false =>
      -- the walk stops here, as it did when the tree was built
      simp only [hmatch, Bool.false_eq_true, if_false, List.singleton_append] at hbits hhashes ⊢
      obtain ⟨hbit, -⟩ := getElem?_of_drop_eq_cons hbits
      obtain ⟨hhash, -⟩ := getElem?_of_drop_eq_cons hhashes
      simp only [hbit, takeHash, hhash, select_block_eq_nil hmask hmatch]
      simp
    | true =>
      simp only [hmatch, if_true, List.cons_append] at hbits hhashes ⊢
      obtain ⟨hbit, hbits⟩ := getElem?_of_drop_eq_cons hbits
      simp only [hbit]
      by_cases hright : pos * 2 + 1 < calcTreeWidth vTxid.length height
      · have hlt := (lt_calcTreeWidth_iff hn (by omega)).mp hright
        simp only [if_pos hright, List.append_assoc] at hbits hhashes ⊢
        rw [ih (pos * 2) { e with nBitsUsed := e.nBitsUsed + 1 } _ _ (by omega) hpos' hbits hhashes]
        simp only [ht, if_pos hright]
        rw [ih (pos * 2 + 1) _ _ _ (by omega) hlt (drop_of_drop_eq_append hbits)
          (drop_of_drop_eq_append hhashes)]
        have hne := hdiff height pos (by omega) hright
        simp only [beq_eq_false_iff_ne.mpr hne, Bool.or_false, block_succ_eq, select_append,
          List.length_cons, List.length_append, List.append_assoc, calcHash, if_pos hright]
        simp only [Prod.mk.injEq, Extraction.mk.injEq, true_and, and_true]
        omega
      · have hle := (not_congr (lt_calcTreeWidth_iff hn (by omega))).mp hright
        have hzip : (vTxid.zip vMatch).length ≤ (pos * 2 + 1) * 2 ^ height := by
          rw [List.length_zip]
          omega
        simp only [if_neg hright, List.append_nil] at hbits hhashes ⊢
        rw [ih (pos * 2) { e with nBitsUsed := e.nBitsUsed + 1 } _ _ (by omega) hpos' hbits hhashes]
        simp only [ht, if_neg hright, block_succ_of_le hzip, calcHash, List.length_cons,
          Prod.mk.injEq, Extraction.mk.injEq, true_and, and_true]
        omega

end Extract

end CPartialMerkleTree
