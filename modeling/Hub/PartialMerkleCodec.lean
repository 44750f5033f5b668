/-
# Sending partial merkle trees

The serialisation of `CPartialMerkleTree` (`libs/server/merkleblock.h`).  The bits are packed
into bytes, eight to a byte and the least significant bit first, so that up to seven bits
are added on the way.  The vectors are read back only if they have at most `MAX_SIZE`
elements.

A tree never has more hashes than transactions, and hardly more than two bits for each hash
(`length_nodeBits_le`).  So it is the number of hashes that decides whether a tree is read
back.
-/
import Hub.PartialMerkleTree

open ByteCodec PaddedTree Serialization

/-! ## Packing bits -/

/-- Set the bit `p` of a vector of bytes to `v`, where it is zero. -/
def setBit (vBytes : List UInt8) (p : ℕ) (v : Bool) : List UInt8 :=
  vBytes.modify (p / 8) (· ||| v.toUInt8 <<< UInt8.ofNat (p % 8))

/-- The bit `p` of a vector of bytes. -/
def getBit (vBytes : List UInt8) (p : ℕ) : Bool :=
  (vBytes.getD (p / 8) 0 &&& 1 <<< UInt8.ofNat (p % 8)) != 0

/-- The bytes that are written for the bits. -/
def packBits (vBits : List Bool) : List UInt8 :=
  (List.range vBits.length).foldl (fun vBytes p => setBit vBytes p (vBits.getD p false))
    (List.replicate ((vBits.length + 7) / 8) 0)

/-- The bits that are read from the bytes. -/
def unpackBits (vBytes : List UInt8) : List Bool :=
  (List.range (vBytes.length * 8)).map (getBit vBytes)

theorem getBit_eq_testBit (vBytes : List UInt8) (p : ℕ) :
    getBit vBytes p = (vBytes.getD (p / 8) 0).toNat.testBit (p % 8) := by
  have hshift : ∀ j < 8, ((1 : UInt8) <<< UInt8.ofNat j).toNat = 2 ^ j := by decide
  have hne : ∀ x : UInt8, (x != 0) = (x.toNat != 0) := by
    intro x
    rw [Bool.eq_iff_iff, bne_iff_ne, bne_iff_ne, ne_eq, ne_eq, ← UInt8.toNat_inj]
    rfl
  rw [getBit, hne, UInt8.toNat_and, hshift _ (Nat.mod_lt _ (by omega)), Nat.and_two_pow]
  cases Nat.testBit _ (p % 8) <;> simp

@[simp] theorem length_setBit (vBytes : List UInt8) (p : ℕ) (v : Bool) :
    (setBit vBytes p v).length = vBytes.length := by
  rw [setBit, List.length_modify]

/-- Setting a bit changes that bit, and no other. -/
theorem getBit_setBit {vBytes : List UInt8} {q : ℕ} (hq : q / 8 < vBytes.length) (v : Bool)
    (p : ℕ) : getBit (setBit vBytes q v) p = (getBit vBytes p || (v && p == q)) := by
  have hbit : ∀ v : Bool, ∀ i < 8, ∀ j < 8,
      (v.toUInt8 <<< UInt8.ofNat i).toNat.testBit j = (v && j == i) := by decide
  rw [getBit_eq_testBit, getBit_eq_testBit, setBit, List.getD_eq_getElem?_getD,
    List.getD_eq_getElem?_getD, List.getElem?_modify]
  by_cases hbyte : q / 8 = p / 8
  · rw [← hbyte, List.getElem?_eq_getElem hq]
    simp only [Option.map_eq_map, Option.map_some, Option.getD_some, if_true, UInt8.toNat_or,
      Nat.testBit_or]
    rw [hbit _ _ (Nat.mod_lt _ (by omega)) _ (Nat.mod_lt _ (by omega))]
    have hmod : (p % 8 == q % 8) = (p == q) := by
      rw [Bool.eq_iff_iff, beq_iff_eq, beq_iff_eq]
      omega
    rw [hmod]
  · have hne : (p == q) = false := by
      rw [beq_eq_false_iff_ne]
      rintro rfl
      exact hbyte rfl
    simp only [hbyte, if_false, Option.map_eq_map, Option.map_id_fun', id_eq, hne, Bool.and_false,
      Bool.or_false]

/-- The bits that the first rounds of the loop have set. -/
theorem getBit_foldl_setBit (vBits : List Bool) : ∀ k ≤ vBits.length, ∀ p,
    ((List.range k).foldl (fun vBytes p => setBit vBytes p (vBits.getD p false))
        (List.replicate ((vBits.length + 7) / 8) 0)).length = (vBits.length + 7) / 8 ∧
      getBit ((List.range k).foldl (fun vBytes p => setBit vBytes p (vBits.getD p false))
        (List.replicate ((vBits.length + 7) / 8) 0)) p
        = (decide (p < k) && vBits.getD p false) := by
  intro k
  induction k with
  | zero =>
    intro _ p
    refine ⟨by simp, ?_⟩
    rw [List.range_zero, List.foldl_nil, getBit_eq_testBit, List.getD_eq_getElem?_getD,
      List.getElem?_replicate]
    split <;> simp
  | succ k ih =>
    intro hk p
    obtain ⟨hlen, hbit⟩ := ih (by omega) p
    rw [List.range_succ, List.foldl_append, List.foldl_cons, List.foldl_nil]
    refine ⟨by rw [length_setBit, hlen], ?_⟩
    rw [getBit_setBit (by rw [hlen]; omega), hbit, Bool.eq_iff_iff]
    by_cases hpk : p = k
    · subst hpk
      simp
    · have hiff : p < k + 1 ↔ p < k := by omega
      simp [hpk, hiff]

@[simp] theorem length_packBits (vBits : List Bool) :
    (packBits vBits).length = (vBits.length + 7) / 8 :=
  (getBit_foldl_setBit vBits vBits.length (Nat.le_refl _) 0).1

/-- **Bits come back with zeros behind them.** -/
theorem unpackBits_packBits (vBits : List Bool) :
    unpackBits (packBits vBits)
      = vBits ++ List.replicate ((vBits.length + 7) / 8 * 8 - vBits.length) false := by
  apply List.ext_getElem?
  intro p
  rw [unpackBits, length_packBits, List.getElem?_map]
  by_cases hp : p < (vBits.length + 7) / 8 * 8
  · rw [List.getElem?_range hp, Option.map_some]
    have hbit := (getBit_foldl_setBit vBits vBits.length (Nat.le_refl _) p).2
    rw [← packBits] at hbit
    rw [hbit]
    by_cases hlt : p < vBits.length
    · rw [List.getElem?_append_left hlt, List.getElem?_eq_getElem hlt,
        List.getD_eq_getElem _ _ hlt]
      simp [hlt]
    · rw [List.getElem?_append_right (by omega), List.getElem?_replicate, if_pos (by omega)]
      simp [hlt]
  · rw [List.getElem?_eq_none (by rw [List.length_range]; omega), List.getElem?_eq_none]
    · rfl
    · rw [List.length_append, List.length_replicate]
      omega

namespace CPartialMerkleTree

/-! ## How much is stored -/

section Sizes

variable {α : Type} [Inhabited α] {Hash : α → α → α} {vTxid : List α} {vMatch : List Bool}

/-- There is a bit for every hash. -/
theorem length_nodeHashes_le_bits (n height pos : ℕ) :
    (nodeHashes Hash vTxid vMatch n height pos).length ≤ (nodeBits n vMatch height pos).length := by
  induction height generalizing pos with
  | zero => simp [nodeHashes, nodeBits]
  | succ height ih =>
    have hl := ih (pos * 2)
    have hr := ih (pos * 2 + 1)
    rw [nodeHashes, nodeBits]
    split
    · rw [List.length_append, List.length_cons, List.length_append]
      split
      · omega
      · simp only [List.length_nil]
        omega
    · simp

section

variable (hn : vTxid.length < 2 ^ 31)

include hn

/-- There is a leaf for every hash. -/
theorem length_nodeHashes_le_block : ∀ (height pos : ℕ), height ≤ 31 →
    pos * 2 ^ height < vTxid.length →
    (nodeHashes Hash vTxid vMatch vTxid.length height pos).length
      ≤ (block height pos vTxid).length := by
  intro height
  induction height with
  | zero =>
    intro pos _ hpos
    rw [nodeHashes, block, List.length_take, List.length_drop, List.length_singleton]
    omega
  | succ height ih =>
    intro pos hh hpos
    have hpow : pos * 2 ^ (height + 1) = pos * 2 * 2 ^ height := by ring
    have hl := ih (pos * 2) (by omega) (by omega)
    rw [nodeHashes]
    split
    · rw [List.length_append, block_succ_eq, List.length_append]
      by_cases hright : pos * 2 + 1 < calcTreeWidth vTxid.length height
      · have hr := ih (pos * 2 + 1) (by omega) ((lt_calcTreeWidth_iff hn (by omega)).mp hright)
        rw [if_pos hright]
        omega
      · rw [if_neg hright, List.length_nil]
        omega
    · have hpos' : 0 < 2 ^ (height + 1) := by positivity
      rw [List.length_singleton, block, List.length_take, List.length_drop]
      omega

/-- In a complete subtree the nodes that are not stored have two children. -/
theorem length_nodeBits_of_complete : ∀ (height pos : ℕ), height ≤ 31 →
    (pos + 1) * 2 ^ height ≤ vTxid.length →
    (nodeBits vTxid.length vMatch height pos).length + 1
      ≤ 2 * (nodeHashes Hash vTxid vMatch vTxid.length height pos).length := by
  intro height
  induction height with
  | zero =>
    intro pos _ _
    simp [nodeBits, nodeHashes]
  | succ height ih =>
    intro pos hh hpos
    have hpow : (pos + 1) * 2 ^ (height + 1) = (pos * 2 + 1 + 1) * 2 ^ height := by ring
    have hpow' : (pos * 2 + 1 + 1) * 2 ^ height = (pos * 2 + 1) * 2 ^ height + 2 ^ height := by
      ring
    have hp : 0 < 2 ^ height := by positivity
    have hright : pos * 2 + 1 < calcTreeWidth vTxid.length height :=
      (lt_calcTreeWidth_iff hn (by omega)).mpr (by omega)
    have hl := ih (pos * 2) (by omega) (by omega)
    have hr := ih (pos * 2 + 1) (by omega) (by omega)
    rw [nodeBits, nodeHashes]
    split
    · simp only [List.length_cons, List.length_append]
      omega
    · simp

/-- **There are hardly more than two bits for each hash.**  Only the last node of a level
may have a single child. -/
theorem length_nodeBits_le : ∀ (height pos : ℕ), height ≤ 31 → pos * 2 ^ height < vTxid.length →
    (nodeBits vTxid.length vMatch height pos).length + 1
      ≤ 2 * (nodeHashes Hash vTxid vMatch vTxid.length height pos).length + height := by
  intro height
  induction height with
  | zero =>
    intro pos _ _
    simp [nodeBits, nodeHashes]
  | succ height ih =>
    intro pos hh hpos
    have hpow : pos * 2 ^ (height + 1) = pos * 2 * 2 ^ height := by ring
    rw [nodeBits, nodeHashes]
    split
    · by_cases hright : pos * 2 + 1 < calcTreeWidth vTxid.length height
      · -- the left child has a right neighbour, so it is complete
        have hlt := (lt_calcTreeWidth_iff hn (by omega)).mp hright
        have hl : (nodeBits vTxid.length vMatch height (pos * 2)).length + 1
            ≤ 2 * (nodeHashes Hash vTxid vMatch vTxid.length height (pos * 2)).length :=
          length_nodeBits_of_complete hn height (pos * 2) (by omega) (by omega)
        have hr := ih (pos * 2 + 1) (by omega) hlt
        simp only [if_pos hright, List.length_cons, List.length_append]
        omega
      · have hl := ih (pos * 2) (by omega) (by omega)
        simp only [if_neg hright, List.append_nil, List.length_cons]
        omega
    · rw [List.length_singleton, List.length_singleton]
      omega

/-- When all transactions are matched, all of them are stored. -/
theorem length_nodeHashes_of_all (hmask : vMatch = List.replicate vTxid.length true) :
    ∀ (height pos : ℕ), height ≤ 31 → pos * 2 ^ height < vTxid.length →
      (nodeHashes Hash vTxid vMatch vTxid.length height pos).length
        = (block height pos vTxid).length := by
  intro height
  induction height with
  | zero =>
    intro pos _ hpos
    rw [nodeHashes, block, List.length_take, List.length_drop, List.length_singleton]
    omega
  | succ height ih =>
    intro pos hh hpos
    have hpow : pos * 2 ^ (height + 1) = pos * 2 * 2 ^ height := by ring
    have hp : 0 < 2 ^ (height + 1) := by positivity
    have hmatch : parentOfMatch vTxid.length vMatch (height + 1) pos = true := by
      rw [parentOfMatch_eq (by rw [hmask, List.length_replicate]), block, hmask,
        List.drop_replicate, List.take_replicate, List.any_replicate]
      simp
      omega
    rw [nodeHashes, if_pos hmatch, List.length_append, ih (pos * 2) (by omega) (by omega)]
    by_cases hright : pos * 2 + 1 < calcTreeWidth vTxid.length height
    · rw [if_pos hright,
        ih (pos * 2 + 1) (by omega) ((lt_calcTreeWidth_iff hn (by omega)).mp hright),
        block_succ_eq, List.length_append]
    · have hle := (not_congr (lt_calcTreeWidth_iff hn (by omega))).mp hright
      rw [if_neg hright, block_succ_of_le (by omega), List.length_nil, Nat.add_zero]

end

end Sizes

/-! ## Neighbours -/

section Siblings

variable {α : Type} [Inhabited α] {Hash : α → α → α} {vTxid : List α}

/-- `x` is the hash of a node of the tree. -/
def IsNode (Hash : α → α → α) (vTxid : List α) (x : α) : Prop :=
  ∃ height pos, height ≤ treeHeight vTxid.length ∧ pos < calcTreeWidth vTxid.length height ∧
    x = calcHash Hash vTxid.length vTxid height pos

/-- The hash is injective, as far as the tree goes. -/
def NodeInjective (Hash : α → α → α) (vTxid : List α) : Prop :=
  ∀ a b c d, IsNode Hash vTxid a → IsNode Hash vTxid b → IsNode Hash vTxid c →
    IsNode Hash vTxid d → Hash a b = Hash c d → a = c ∧ b = d

variable (hn : vTxid.length < 2 ^ 31)

include hn

/-- Nodes of the same height with the same hash have the same first leaf. -/
theorem getElem?_eq_of_calcHash_eq (hinj : NodeInjective Hash vTxid) :
    ∀ (height p q : ℕ), height ≤ treeHeight vTxid.length → p * 2 ^ height < vTxid.length →
      q * 2 ^ height < vTxid.length →
      calcHash Hash vTxid.length vTxid height p = calcHash Hash vTxid.length vTxid height q →
      vTxid[p * 2 ^ height]? = vTxid[q * 2 ^ height]? := by
  intro height
  induction height with
  | zero =>
    intro p q _ hp hq h
    rw [pow_zero, mul_one] at hp hq
    simp only [pow_zero, mul_one]
    rw [calcHash, calcHash, List.getD_eq_getElem _ _ hp, List.getD_eq_getElem _ _ hq] at h
    rw [List.getElem?_eq_getElem hp, List.getElem?_eq_getElem hq, h]
  | succ height ih =>
    intro p q hh hp hq h
    have hmax := (treeHeight_spec (by omega) hn).2.2
    have hpow : ∀ p, p * 2 ^ (height + 1) = p * 2 * 2 ^ height := fun p => by ring
    rw [hpow] at hp hq
    -- the left child and the right child of a node are nodes
    have hleft : ∀ p, p * 2 * 2 ^ height < vTxid.length →
        IsNode Hash vTxid (calcHash Hash vTxid.length vTxid height (p * 2)) := fun p hp =>
      ⟨height, p * 2, by omega, (lt_calcTreeWidth_iff hn (by omega)).mpr hp, rfl⟩
    have hright : ∀ p, p * 2 * 2 ^ height < vTxid.length →
        IsNode Hash vTxid (if p * 2 + 1 < calcTreeWidth vTxid.length height then
          calcHash Hash vTxid.length vTxid height (p * 2 + 1)
          else calcHash Hash vTxid.length vTxid height (p * 2)) := by
      intro p hp
      split
      · next hw => exact ⟨height, p * 2 + 1, by omega, hw, rfl⟩
      · exact hleft p hp
    rw [calcHash, calcHash] at h
    have hchild := (hinj _ _ _ _ (hleft p hp) (hright p hp) (hleft q hq) (hright q hq) h).1
    rw [hpow, hpow]
    exact ih (p * 2) (q * 2) (by omega) hp hq hchild

/-- **Neighbours differ** when no transaction is repeated. -/
theorem siblingsDiffer_of_nodup (hnodup : vTxid.Nodup) (hinj : NodeInjective Hash vTxid) :
    SiblingsDiffer Hash vTxid := by
  intro height pos hh hright heq
  have hlt : height < 31 := by
    by_cases hne : vTxid.length = 0
    · rw [hne] at hh
      exact absurd hh (Nat.not_lt_zero height)
    · have hmax := (treeHeight_spec (by omega) hn).2.2
      omega
  have hr := (lt_calcTreeWidth_iff hn (by omega)).mp hright
  have hsucc : (pos * 2 + 1) * 2 ^ height = pos * 2 * 2 ^ height + 2 ^ height := by ring
  have hpos : 0 < 2 ^ height := by positivity
  have hleaf := getElem?_eq_of_calcHash_eq hn hinj height (pos * 2 + 1) (pos * 2) (by omega) hr
    (by omega) heq
  have hidx := (List.getElem?_inj hr hnodup).mp hleaf
  omega

end Siblings

/-! ## The round trip -/

/-- A tree that was built, with bits behind it that fill up the last byte. -/
theorem extractMatches_build {α : Type} [Inhabited α] [DecidableEq α] {Hash : α → α → α}
    {vTxid : List α} {vMatch : List Bool} (hne : vTxid ≠ []) (hn : vTxid.length < 2 ^ 31)
    (hmask : vMatch.length = vTxid.length) (hdiff : SiblingsDiffer Hash vTxid)
    (padding : List Bool) (hpad : ((build Hash vTxid vMatch).vBits.length + 7) / 8
      = ((build Hash vTxid vMatch).vBits.length + padding.length + 7) / 8) :
    extractMatches Hash { build Hash vTxid vMatch with
        vBits := (build Hash vTxid vMatch).vBits ++ padding }
      = (calcHash Hash vTxid.length vTxid (treeHeight vTxid.length) 0,
        select (vTxid.zip vMatch)) := by
  have hpos := List.length_pos_iff.mpr hne
  obtain ⟨hle, -, hh⟩ := treeHeight_spec hpos hn
  have hblock : block (treeHeight vTxid.length) 0 (vTxid.zip vMatch) = vTxid.zip vMatch := by
    rw [block, zero_mul, List.drop_zero, List.take_of_length_le]
    rw [List.length_zip]
    omega
  have hhashes : (nodeHashes Hash vTxid vMatch vTxid.length (treeHeight vTxid.length) 0).length
      ≤ (block (treeHeight vTxid.length) 0 vTxid).length :=
    length_nodeHashes_le_block hn _ 0 hh (by omega)
  rw [block, zero_mul, List.drop_zero, List.take_of_length_le hle] at hhashes
  have hbits : (nodeHashes Hash vTxid vMatch vTxid.length (treeHeight vTxid.length) 0).length
      ≤ (nodeBits vTxid.length vMatch (treeHeight vTxid.length) 0).length :=
    length_nodeHashes_le_bits _ _ 0
  rw [build_eq Hash vTxid vMatch hn] at hpad ⊢
  simp only at hpad
  rw [extractMatches]
  simp only
  rw [if_neg (by omega), if_neg (by rw [Nat.mod_eq_of_lt (by omega)]; omega),
    if_neg (by rw [List.length_append]; omega)]
  rw [traverseAndExtract_eq hn hmask hdiff rfl (treeHeight vTxid.length) 0 _ padding []
    (Nat.le_refl _) (by omega) rfl (by rw [List.append_nil]; rfl)]
  simp only [Bool.false_eq_true, if_false, Nat.zero_add, List.length_append]
  rw [if_neg (by omega), if_neg (by simp), List.nil_append, hblock]

/-- `SerializationOp`, writing.  A vector of bytes is written as a script is. -/
def serialize (t : CPartialMerkleTree Uint256) : List UInt8 :=
  leBytes 4 t.nTransactions ++
    (writeVector (fun hash : Uint256 => leBytes 32 hash.toNat) t.vHash ++
      writeScript (packBits t.vBits))

/-- `Unserialize` of a hash. -/
def readHash : Reader String Uint256 := do
  let hash ← readData 32
  pure (BitVec.ofNat 256 hash)

/-- `SerializationOp`, reading. -/
def unserialize : Reader String (CPartialMerkleTree Uint256) := do
  let nTransactions ← readData 4
  let vHash ← readVector readHash
  let vBytes ← readScript
  pure ⟨nTransactions, unpackBits vBytes, vHash, false⟩

theorem reads_readHash (hash : Uint256) : Reads readHash (leBytes 32 hash.toNat) hash :=
  (reads_readData (lt_of_lt_of_eq hash.isLt (by norm_num))).map (BitVec.ofNat_toNat 256 hash ▸ by simp)

/-- A tree whose vectors are not too long is read back, with bits added. -/
theorem reads_unserialize {t : CPartialMerkleTree Uint256} (hn : t.nTransactions < 2 ^ 32)
    (hhash : t.vHash.length ≤ maxSize) (hbits : (t.vBits.length + 7) / 8 ≤ maxSize)
    (hbad : t.fBad = false) :
    Reads unserialize t.serialize { t with
      vBits := t.vBits ++ List.replicate ((t.vBits.length + 7) / 8 * 8 - t.vBits.length) false } := by
  have hscript : Reads readScript (writeScript (packBits t.vBits)) (packBits t.vBits) :=
    reads_readScript (by rwa [length_packBits])
  have hvector : Reads (readVector readHash)
      (writeVector (fun hash : Uint256 => leBytes 32 hash.toNat) t.vHash) t.vHash := by
    have h : Reads (readVector readHash)
        (writeVector (fun hash : Uint256 => leBytes 32 hash.toNat) t.vHash) (t.vHash.map id) :=
      reads_readVector hhash (fun x _ => reads_readHash x)
    rwa [List.map_id] at h
  refine (reads_readData (by simpa using hn)).bind (hvector.bind (hscript.map ?_))
  rw [unpackBits_packBits, ← hbad]

/-- A tree with too many hashes is refused. -/
theorem fails_unserialize {t : CPartialMerkleTree Uint256} (hn : t.nTransactions < 2 ^ 32)
    (hhash : maxSize < t.vHash.length) (hlen : t.vHash.length < 2 ^ 64) :
    Fails unserialize t.serialize tooLarge := by
  refine (reads_readData (by simpa using hn)).bind_fails (Fails.bind _ ?_)
  exact (fails_readCompactSize hlen hhash).bind _

/-- **The round trip.**  Let a block have fewer than `2 ^ 31` transactions, no two the same,
and let the tree for a mask have at most `MAX_SIZE` hashes.  The tree that arrives at the
peer yields the merkle root of the block, and the transactions that the mask selects. -/
theorem extractMatches_unserialize_serialize (Hash : Uint256 → Uint256 → Uint256)
    (vTxid : List Uint256) (vMatch : List Bool) (hne : vTxid ≠ []) (hn : vTxid.length < 2 ^ 31)
    (hmask : vMatch.length = vTxid.length) (hnodup : vTxid.Nodup)
    (hinj : NodeInjective Hash vTxid) (hfit : (build Hash vTxid vMatch).vHash.length ≤ maxSize) :
    ∃ t mutated, unserialize (build Hash vTxid vMatch).serialize = .ok (t, []) ∧
      Merkle.computeMerkleRoot Hash vTxid = some ((t.extractMatches Hash).1, mutated) ∧
      (t.extractMatches Hash).2 = select (vTxid.zip vMatch) := by
  have hpos := List.length_pos_iff.mpr hne
  obtain ⟨-, -, hh⟩ := treeHeight_spec hpos hn
  have hsize : (nodeBits vTxid.length vMatch (treeHeight vTxid.length) 0).length + 1
      ≤ 2 * (nodeHashes Hash vTxid vMatch vTxid.length (treeHeight vTxid.length) 0).length
        + treeHeight vTxid.length :=
    length_nodeBits_le hn _ 0 hh (by omega)
  have hbuild := build_eq Hash vTxid vMatch hn
  have hbits : ((build Hash vTxid vMatch).vBits.length + 7) / 8 ≤ maxSize := by
    rw [hbuild] at hfit ⊢
    unfold maxSize at hfit ⊢
    simp only at hfit ⊢
    omega
  obtain ⟨mutated, hroot⟩ := computeMerkleRoot_eq_calcHash Hash hne hn
  have hread := reads_unserialize (t := build Hash vTxid vMatch) (by rw [hbuild]; simp only; omega)
    hfit hbits (by rw [hbuild]) []
  rw [List.append_nil] at hread
  have hextract := extractMatches_build hne hn hmask (siblingsDiffer_of_nodup hn hnodup hinj)
    (List.replicate (((build Hash vTxid vMatch).vBits.length + 7) / 8 * 8
      - (build Hash vTxid vMatch).vBits.length) false) (by rw [List.length_replicate]; omega)
  refine ⟨_, mutated, hread, ?_, ?_⟩
  · rw [hextract, hroot]
  · rw [hextract]

/-! ### Complete trees -/

/-- The transactions of a block with `2 ^ k` transactions. -/
def firstTxids (k : ℕ) : List Uint256 := (List.range (2 ^ k)).map (BitVec.ofNat 256)

/-- A hash that keeps the height and the position of a node apart.  Two neighbours are hashed
to the node above them, and everything else is hashed to a large number. -/
def nodeHash (a b : Uint256) : Uint256 :=
  if b.toNat = a.toNat + 1 ∧ a.toNat % 2 = 0 then
    BitVec.ofNat 256 ((a.toNat / 2 ^ 32 + 1) * 2 ^ 32 + a.toNat % 2 ^ 32 / 2)
  else BitVec.ofNat 256 (2 ^ 200 + a.toNat * 2 ^ 100 + b.toNat)

theorem toNat_nodeHash {a b : Uint256} (ha : a.toNat < 2 ^ 50) (hb : b.toNat < 2 ^ 50) :
    (nodeHash a b).toNat = if b.toNat = a.toNat + 1 ∧ a.toNat % 2 = 0 then
      (a.toNat / 2 ^ 32 + 1) * 2 ^ 32 + a.toNat % 2 ^ 32 / 2
      else 2 ^ 200 + a.toNat * 2 ^ 100 + b.toNat := by
  unfold nodeHash
  split
  · rw [BitVec.toNat_ofNat, Nat.mod_eq_of_lt]
    omega
  · rw [BitVec.toNat_ofNat, Nat.mod_eq_of_lt]
    omega

@[simp] theorem length_firstTxids (k : ℕ) : (firstTxids k).length = 2 ^ k := by
  rw [firstTxids, List.length_map, List.length_range]

theorem firstTxids_ne_nil (k : ℕ) : firstTxids k ≠ [] := by
  rw [← List.length_pos_iff, length_firstTxids]
  positivity

section

variable {k : ℕ} (hk : k ≤ 26)

include hk

theorem length_firstTxids_lt : (firstTxids k).length < 2 ^ 31 := by
  rw [length_firstTxids]
  exact Nat.pow_lt_pow_right (by omega) (by omega)

theorem treeHeight_firstTxids : treeHeight (firstTxids k).length = k := by
  obtain ⟨hle, hlt, -⟩ := treeHeight_spec (List.length_pos_iff.mpr (firstTxids_ne_nil k))
    (length_firstTxids_lt hk)
  rw [length_firstTxids] at hle hlt ⊢
  have hlt' : 2 ^ treeHeight (2 ^ k) < 2 ^ (k + 1) := lt_of_lt_of_eq hlt (by ring)
  have h₁ := (Nat.pow_le_pow_iff_right (by omega)).mp hle
  have h₂ := (Nat.pow_lt_pow_iff_right (by omega)).mp hlt'
  omega

/-- The hashes of the nodes. -/
theorem toNat_calcHash_firstTxids : ∀ height pos, height ≤ k → pos * 2 ^ height < 2 ^ k →
    (calcHash nodeHash (firstTxids k).length (firstTxids k) height pos).toNat
      = height * 2 ^ 32 + pos := by
  have hk26 : 2 ^ k ≤ 2 ^ 26 := Nat.pow_le_pow_right (by omega) hk
  intro height
  induction height with
  | zero =>
    intro pos _ hpos
    rw [pow_zero, mul_one] at hpos
    rw [calcHash, List.getD_eq_getElem _ _ (by rw [length_firstTxids]; exact hpos)]
    simp only [firstTxids, List.getElem_map, List.getElem_range, BitVec.toNat_ofNat]
    omega
  | succ height ih =>
    intro pos hh hpos
    have hpow : pos * 2 ^ (height + 1) = pos * 2 * 2 ^ height := by ring
    -- the number of leaves is a power of two, so that there is a right child
    obtain ⟨j, hj⟩ := Nat.exists_eq_add_of_le hh
    have hfull : 2 ^ k = 2 ^ j * 2 * 2 ^ height := by
      rw [hj]
      ring
    have hposj : pos * 2 < 2 ^ j * 2 := by
      rw [hpow, hfull] at hpos
      exact Nat.lt_of_mul_lt_mul_right hpos
    have hright : (pos * 2 + 1) * 2 ^ height < 2 ^ k := by
      rw [hfull]
      exact Nat.mul_lt_mul_of_pos_right (by omega) (by positivity)
    have hwidth : pos * 2 + 1 < calcTreeWidth (firstTxids k).length height := by
      rw [lt_calcTreeWidth_iff (length_firstTxids_lt hk) (by omega), length_firstTxids]
      exact hright
    have hj26 : 2 ^ j ≤ 2 ^ k := Nat.pow_le_pow_right (by omega) (by omega)
    have hl := ih (pos * 2) (by omega) (by omega)
    have hr := ih (pos * 2 + 1) (by omega) hright
    rw [calcHash]
    simp only [if_pos hwidth]
    rw [toNat_nodeHash (by rw [hl]; omega) (by rw [hr]; omega), hl, hr, if_pos (by omega)]
    omega

theorem lt_of_isNode_firstTxids {x : Uint256} (h : IsNode nodeHash (firstTxids k) x) :
    x.toNat < 2 ^ 50 := by
  obtain ⟨height, pos, hh, hpos, rfl⟩ := h
  have hk26 : 2 ^ k ≤ 2 ^ 26 := Nat.pow_le_pow_right (by omega) hk
  rw [treeHeight_firstTxids hk] at hh
  rw [lt_calcTreeWidth_iff (length_firstTxids_lt hk) (by omega), length_firstTxids] at hpos
  have hpow : 0 < 2 ^ height := by positivity
  have hle := Nat.le_mul_of_pos_right pos hpow
  rw [toNat_calcHash_firstTxids hk height pos hh hpos]
  omega

theorem nodeInjective_firstTxids : NodeInjective nodeHash (firstTxids k) := by
  intro a b c d ha hb hc hd h
  have ha' := lt_of_isNode_firstTxids hk ha
  have hb' := lt_of_isNode_firstTxids hk hb
  have hc' := lt_of_isNode_firstTxids hk hc
  have hd' := lt_of_isNode_firstTxids hk hd
  have hnat := congrArg BitVec.toNat h
  rw [toNat_nodeHash ha' hb', toNat_nodeHash hc' hd'] at hnat
  rw [← BitVec.toNat_inj, ← BitVec.toNat_inj]
  split_ifs at hnat with h₁ h₂ h₂ <;> omega

theorem nodeHash_not_mem_firstTxids {a b : Uint256} (ha : IsNode nodeHash (firstTxids k) a)
    (hb : IsNode nodeHash (firstTxids k) b) : nodeHash a b ∉ firstTxids k := by
  intro hmem
  have hk26 : 2 ^ k ≤ 2 ^ 26 := Nat.pow_le_pow_right (by omega) hk
  have hnat := toNat_nodeHash (lt_of_isNode_firstTxids hk ha) (lt_of_isNode_firstTxids hk hb)
  rw [firstTxids, List.mem_map] at hmem
  obtain ⟨i, hi, heq⟩ := hmem
  rw [List.mem_range] at hi
  rw [← heq, BitVec.toNat_ofNat] at hnat
  split_ifs at hnat <;> omega

theorem nodup_firstTxids : (firstTxids k).Nodup := by
  have hk26 : 2 ^ k ≤ 2 ^ 26 := Nat.pow_le_pow_right (by omega) hk
  refine List.Nodup.map_on ?_ List.nodup_range
  intro i hi j hj h
  rw [List.mem_range] at hi hj
  have hnat := congrArg BitVec.toNat h
  rw [BitVec.toNat_ofNat, BitVec.toNat_ofNat] at hnat
  omega

end

/-- Two transactions out of four. -/
theorem extractMatches_unserialize_serialize_four :
    ∃ t mutated, unserialize
        (build nodeHash (firstTxids 2) [false, true, true, false]).serialize = .ok (t, []) ∧
      Merkle.computeMerkleRoot nodeHash (firstTxids 2)
        = some ((t.extractMatches nodeHash).1, mutated) ∧
      (t.extractMatches nodeHash).2 = [1, 2] :=
  extractMatches_unserialize_serialize nodeHash (firstTxids 2) [false, true, true, false]
    (firstTxids_ne_nil 2) (length_firstTxids_lt (by omega)) rfl (nodup_firstTxids (by omega))
    (nodeInjective_firstTxids (by omega)) (by decide)

/-- A tree with `2 ^ 26` hashes is not read back. -/
theorem unserialize_serialize_tooMany :
    firstTxids 26 ≠ [] ∧ (firstTxids 26).Nodup ∧ NodeInjective nodeHash (firstTxids 26) ∧
      (∀ a b, IsNode nodeHash (firstTxids 26) a → IsNode nodeHash (firstTxids 26) b →
        nodeHash a b ∉ firstTxids 26) ∧
      unserialize (build nodeHash (firstTxids 26)
        (List.replicate (firstTxids 26).length true)).serialize = .error tooLarge := by
  refine ⟨firstTxids_ne_nil 26, nodup_firstTxids (Nat.le_refl _),
    nodeInjective_firstTxids (Nat.le_refl _),
    fun a b ha hb => nodeHash_not_mem_firstTxids (Nat.le_refl _) ha hb, ?_⟩
  have hn : (firstTxids 26).length < 2 ^ 31 := length_firstTxids_lt (Nat.le_refl _)
  have hbuild := build_eq nodeHash (firstTxids 26) (List.replicate (firstTxids 26).length true) hn
  have hsize : (build nodeHash (firstTxids 26)
      (List.replicate (firstTxids 26).length true)).vHash.length = 2 ^ 26 := by
    rw [hbuild]
    simp only
    rw [length_nodeHashes_of_all hn rfl _ 0 (by rw [treeHeight_firstTxids (Nat.le_refl _)]; omega)
        (by simp), treeHeight_firstTxids (Nat.le_refl _), block, zero_mul, List.drop_zero,
      List.take_of_length_le (by rw [length_firstTxids]), length_firstTxids]
  have hfail := fails_unserialize
    (t := build nodeHash (firstTxids 26) (List.replicate (firstTxids 26).length true))
    (by rw [hbuild]; simp only [length_firstTxids]; omega)
    (by rw [hsize]; unfold maxSize; omega) (by rw [hsize]; omega) []
  rwa [List.append_nil] at hfail

end CPartialMerkleTree
