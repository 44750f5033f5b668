/-
# Bloom filters

`MurmurHash3` (`libs/server/hash.cpp`) and `CBloomFilter` (`libs/server/bloom.cpp`).  A filter comes
from a peer, and every transaction that goes by is matched against it: an output that has an element
of the filter puts its outpoint into it, so that a transaction that spends the output matches.

No bit is ever taken out (`Grows`), and the flag for a full filter keeps one without any bytes from
being asked for a bit.  So a run never divides by zero, what the filter contains it goes on to
contain, and spenders of matched outputs are found (`matchAll_complete`).  Only elements that are
not empty count (`not_matchAll_asStated`).
-/
import Hub.Script
import Hub.Transaction
import Mathlib

namespace Bloom

open ByteCodec CScript

/-! ## The hash -/

/-- `ROTL32`. -/
def rotl32 (x r : UInt32) : UInt32 := (x <<< r) ||| (x >>> (32 - r))

def mixBlock (k1 : UInt32) : UInt32 := rotl32 (k1 * 0xcc9e2d51) 15 * 0x1b873593

/-- The body: the blocks of four bytes, and the tail. -/
def murmurBody (h1 : UInt32) : List UInt8 → UInt32
  | b₀ :: b₁ :: b₂ :: b₃ :: rest =>
      let k1 := mixBlock (UInt32.ofNat (leNat [b₀, b₁, b₂, b₃]))
      murmurBody (rotl32 (h1 ^^^ k1) 13 * 5 + 0xe6546b64) rest
  | [] => h1
  | tail => h1 ^^^ mixBlock (UInt32.ofNat (leNat tail))

/-- `MurmurHash3`. -/
def murmurHash3 (nHashSeed : UInt32) (vDataToHash : List UInt8) : UInt32 :=
  let h1 := murmurBody nHashSeed vDataToHash
  let h1 := h1 ^^^ UInt32.ofNat vDataToHash.length
  let h1 := (h1 ^^^ (h1 >>> 16)) * 0x85ebca6b
  let h1 := (h1 ^^^ (h1 >>> 13)) * 0xc2b2ae35
  h1 ^^^ (h1 >>> 16)

/-! ## The filter -/

/-- `CBloomFilter`. -/
structure CBloomFilter where
  vData : List UInt8
  isFull : Bool
  isEmpty : Bool
  nHashFuncs : UInt32
  nTweak : UInt32
  nFlags : UInt8
  deriving DecidableEq

/-- The bit `nIndex` of a byte. -/
def bitMask (nIndex : ℕ) : UInt8 := 1 <<< UInt8.ofNat (nIndex % 8)

/-- Sets bit `nIndex` of `vData`. -/
def setBit (vData : List UInt8) (nIndex : ℕ) : List UInt8 :=
  vData.modify (nIndex / 8) (· ||| bitMask nIndex)

/-- Checks bit `nIndex` of `vData`. -/
def getBit (vData : List UInt8) (nIndex : ℕ) : Bool :=
  (vData[nIndex / 8]?.getD 0) &&& bitMask nIndex != 0

/-- The elements that `GetOp` reads one after the other, up to the end or to a malformed push; the
first argument bounds the rounds. -/
def elementsLoop : ℕ → Bytes → List Bytes
  | fuel + 1, b :: pc =>
      match getOp (b :: pc) with
      | none => []
      | some (_, data, rest) => data :: elementsLoop fuel rest
  | _, _ => []

def elements (script : CScript) : List Bytes := elementsLoop script.length script

/-- An outpoint in `SER_NETWORK`. -/
def outPointBytes (outpoint : COutPoint) : List UInt8 :=
  leBytes 32 outpoint.hash.toNat ++ leBytes 4 outpoint.n

namespace CBloomFilter

/-- `Hash`; `none` is a division by zero. -/
def hash (f : CBloomFilter) (nHashNum : ℕ) (vDataToHash : List UInt8) : Option ℕ :=
  if f.vData.length * 8 = 0 then none
  else some ((murmurHash3 (UInt32.ofNat nHashNum * 0xFBA4C795 + f.nTweak) vDataToHash).toNat %
    (f.vData.length * 8))

/-- `insert`, of bytes. -/
def insert (f : CBloomFilter) (vKey : List UInt8) : Option CBloomFilter :=
  if f.isFull then some f
  else do
    let f ← (List.range f.nHashFuncs.toNat).foldlM (fun f i => do
      let nIndex ← f.hash i vKey
      some { f with vData := setBit f.vData nIndex }) f
    some { f with isEmpty := false }

/-- `contains`, of bytes. -/
def contains (f : CBloomFilter) (vKey : List UInt8) : Option Bool :=
  if f.isFull then some true
  else if f.isEmpty then some false
  else (List.range f.nHashFuncs.toNat).allM fun i => do
    let nIndex ← f.hash i vKey
    some (getBit f.vData nIndex)

/-- `UpdateEmptyFull`. -/
def updateEmptyFull (f : CBloomFilter) : CBloomFilter :=
  { f with isFull := f.vData.all (· == 0xff), isEmpty := f.vData.all (· == 0) }

/-- `clear`. -/
def clear (f : CBloomFilter) : CBloomFilter :=
  { f with vData := List.replicate f.vData.length 0, isFull := false, isEmpty := true }

/-- `reset`. -/
def reset (f : CBloomFilter) (nNewTweak : UInt32) : CBloomFilter :=
  { f.clear with nTweak := nNewTweak }

/-- The loop over the elements of a script. -/
def containsElement (f : CBloomFilter) (script : CScript) : Option Bool :=
  (elements script).anyM fun data => if data.isEmpty then some false else f.contains data

/-- The body of the loop over the outputs.  `solver` says whether `Solver` finds a key or several
keys in the script. -/
def matchOutput (solver : CScript → Bool) (hash : Uint256) (acc : Bool × CBloomFilter)
    (output : CTxOut × ℕ) : Option (Bool × CBloomFilter) := do
  let (fFound, f) := acc
  let (txout, i) := output
  if ← f.containsElement txout.scriptPubKey then
    if f.nFlags &&& 3 = 1 ∨ (f.nFlags &&& 3 = 2 ∧ solver txout.scriptPubKey) then do
      let f ← f.insert (outPointBytes ⟨hash, i⟩)
      some (true, f)
    else some (true, f)
  else some (fFound, f)

/-- The loop over the outputs. -/
def matchOutputs (f : CBloomFilter) (solver : CScript → Bool) (hash : Uint256)
    (vout : List CTxOut) (fFound : Bool) : Option (Bool × CBloomFilter) :=
  vout.zipIdx.foldlM (matchOutput solver hash) (fFound, f)

/-- `IsRelevantAndUpdate`. -/
def isRelevantAndUpdate (f : CBloomFilter) (solver : CScript → Bool) (tx : CTransaction) :
    Option (Bool × CBloomFilter) :=
  if f.isFull then some (true, f)
  else if f.isEmpty then some (false, f)
  else do
    let fFound ← f.contains (leBytes 32 tx.hash.toNat)
    let (fFound, f) ← f.matchOutputs solver tx.hash tx.vout fFound
    if fFound then some (true, f)
    else do
      let spends ← tx.vin.anyM fun txin => do
        if ← f.contains (outPointBytes txin.prevout) then some true
        else f.containsElement txin.scriptSig
      some (spends, f)

/-- Transactions that go by one after the other. -/
def matchAll (solver : CScript → Bool) :
    List CTransaction → CBloomFilter → Option (List Bool × CBloomFilter)
  | [], f => some ([], f)
  | tx :: txs, f => do
      let (relevant, f) ← f.isRelevantAndUpdate solver tx
      let (relevants, f) ← matchAll solver txs f
      some (relevant :: relevants, f)

end CBloomFilter

/-! ## Bits -/

theorem or_and (a b c : UInt8) : (a ||| b) &&& c = (a &&& c) ||| (b &&& c) := by
  apply UInt8.toBitVec_inj.mp
  rw [UInt8.toBitVec_and, UInt8.toBitVec_or, UInt8.toBitVec_or, UInt8.toBitVec_and,
    UInt8.toBitVec_and]
  exact BitVec.and_or_distrib_right

theorem bitMask_ne_zero (nIndex : ℕ) : bitMask nIndex ≠ 0 := by
  have hall : ∀ k : Fin 8, (1 : UInt8) <<< UInt8.ofNat k.val ≠ 0 := by decide
  exact hall ⟨nIndex % 8, Nat.mod_lt _ (by omega)⟩

@[simp] theorem length_setBit (vData : List UInt8) (nIndex : ℕ) :
    (setBit vData nIndex).length = vData.length := List.length_modify _ _ _

/-- A bit that is set is there. -/
theorem getBit_setBit_self {vData : List UInt8} {nIndex : ℕ} (h : nIndex < vData.length * 8) :
    getBit (setBit vData nIndex) nIndex = true := by
  have hbyte : nIndex / 8 < vData.length := by omega
  rw [getBit, setBit, List.getElem?_modify_eq, List.getElem?_eq_getElem hbyte,
    Option.map_eq_map, Option.map_some, Option.getD_some, or_and, UInt8.and_self, bne_iff_ne]
  intro hzero
  exact bitMask_ne_zero nIndex (UInt8.or_eq_zero_iff.mp hzero).2

/-- A bit stays set. -/
theorem getBit_setBit {vData : List UInt8} {i j : ℕ} (h : getBit vData j = true) :
    getBit (setBit vData i) j = true := by
  rw [getBit, bne_iff_ne] at h ⊢
  rw [setBit]
  by_cases hsame : i / 8 = j / 8
  · rw [hsame, List.getElem?_modify_eq]
    cases hbyte : vData[j / 8]? with
    | none =>
      rw [hbyte] at h
      exact h
    | some byte =>
      rw [hbyte] at h
      rw [Option.map_eq_map, Option.map_some, Option.getD_some, or_and]
      intro hzero
      exact h (UInt8.or_eq_zero_iff.mp hzero).1
  · rwa [List.getElem?_modify_ne _ _ hsame]

namespace CBloomFilter

variable {f f' : CBloomFilter} {key : List UInt8}

/-! ## What a filter contains -/

/-- The bit for a hash. -/
def index (f : CBloomFilter) (nHashNum : ℕ) (key : List UInt8) : ℕ :=
  (murmurHash3 (UInt32.ofNat nHashNum * 0xFBA4C795 + f.nTweak) key).toNat % (f.vData.length * 8)

/-- All bits of the key are set. -/
def Marked (f : CBloomFilter) (key : List UInt8) : Prop :=
  ∀ i < f.nHashFuncs.toNat, getBit f.vData (f.index i key) = true

instance (f : CBloomFilter) (key : List UInt8) : Decidable (f.Marked key) :=
  inferInstanceAs (Decidable (∀ i < f.nHashFuncs.toNat, getBit f.vData (f.index i key) = true))

/-- A filter without bytes is never asked for a bit. -/
def Safe (f : CBloomFilter) : Prop := f.isFull = false → f.vData ≠ []

/-- What `contains` returns. -/
def Contains (f : CBloomFilter) (key : List UInt8) : Prop :=
  f.isFull = true ∨ (f.isEmpty = false ∧ f.Marked key)

instance (f : CBloomFilter) (key : List UInt8) : Decidable (f.Contains key) :=
  inferInstanceAs (Decidable (_ ∨ _))

theorem Safe.length_pos (h : f.Safe) (hfull : f.isFull = false) : 0 < f.vData.length * 8 := by
  have hpos := List.length_pos_iff.mpr (h hfull)
  omega

theorem hash_eq (h : 0 < f.vData.length * 8) (i : ℕ) : f.hash i key = some (f.index i key) := by
  rw [hash, if_neg (by omega)]
  rfl

theorem index_lt (h : 0 < f.vData.length * 8) (i : ℕ) (key : List UInt8) :
    f.index i key < f.vData.length * 8 := Nat.mod_lt _ h

/-- **`contains`** divides by nothing that is zero. -/
theorem contains_eq (h : f.Safe) (key : List UInt8) :
    f.contains key = some (decide (f.Contains key)) := by
  unfold contains
  by_cases hfull : f.isFull = true
  · rw [if_pos hfull, decide_eq_true (show f.Contains key from .inl hfull)]
  · rw [if_neg hfull]
    have hfull' : f.isFull = false := Bool.eq_false_iff.mpr hfull
    by_cases hempty : f.isEmpty = true
    · rw [if_pos hempty, decide_eq_false]
      rintro (hc | ⟨hc, -⟩)
      · exact hfull hc
      · rw [hempty] at hc
        cases hc
    · rw [if_neg hempty]
      have hpure : (fun i => do
          let nIndex ← f.hash i key
          some (getBit f.vData nIndex)) =
          fun i => (pure (getBit f.vData (f.index i key)) : Option Bool) := by
        funext i
        rw [hash_eq (h.length_pos hfull')]
        rfl
      rw [hpure, List.allM_pure]
      refine congrArg some ?_
      rw [Bool.eq_iff_iff, List.all_eq_true, decide_eq_true_iff]
      constructor
      · intro hall
        refine .inr ⟨Bool.eq_false_iff.mpr hempty, fun i hi => hall i (List.mem_range.mpr hi)⟩
      · rintro (hc | ⟨-, hmarked⟩)
        · exact absurd hc hfull
        · intro i hi
          exact hmarked i (List.mem_range.mp hi)

/-! ## Inserting -/

/-- Bits come in, and nothing else changes. -/
structure Grows (f f' : CBloomFilter) : Prop where
  length : f'.vData.length = f.vData.length
  isFull : f'.isFull = f.isFull
  isEmpty : f.isEmpty = false → f'.isEmpty = false
  nHashFuncs : f'.nHashFuncs = f.nHashFuncs
  nTweak : f'.nTweak = f.nTweak
  nFlags : f'.nFlags = f.nFlags
  getBit : ∀ j, getBit f.vData j = true → getBit f'.vData j = true

theorem Grows.refl (f : CBloomFilter) : Grows f f :=
  ⟨rfl, rfl, id, rfl, rfl, rfl, fun _ => id⟩

theorem Grows.trans {f₁ : CBloomFilter} (h : Grows f f₁) (h' : Grows f₁ f') : Grows f f' where
  length := h'.length.trans h.length
  isFull := h'.isFull.trans h.isFull
  isEmpty := fun hf => h'.isEmpty (h.isEmpty hf)
  nHashFuncs := h'.nHashFuncs.trans h.nHashFuncs
  nTweak := h'.nTweak.trans h.nTweak
  nFlags := h'.nFlags.trans h.nFlags
  getBit := fun j hj => h'.getBit j (h.getBit j hj)

theorem Grows.index (h : Grows f f') (i : ℕ) (key : List UInt8) : f'.index i key = f.index i key := by
  rw [CBloomFilter.index, CBloomFilter.index, h.nTweak, h.length]

theorem Grows.marked (h : Grows f f') (hm : f.Marked key) : f'.Marked key := by
  intro i hi
  rw [h.nHashFuncs] at hi
  rw [h.index]
  exact h.getBit _ (hm i hi)

/-- What is contained stays contained. -/
theorem Grows.contains (h : Grows f f') (hc : f.Contains key) : f'.Contains key := by
  rcases hc with hfull | ⟨hempty, hmarked⟩
  · exact .inl (h.isFull.trans hfull)
  · exact .inr ⟨h.isEmpty hempty, h.marked hmarked⟩

theorem Grows.safe (h : Grows f f') (hs : f.Safe) : f'.Safe := by
  intro hfull hnil
  apply hs (h.isFull ▸ hfull)
  have hlength := h.length
  rw [hnil] at hlength
  exact List.length_eq_zero_iff.mp hlength.symm

/-- Setting the bits of some of the hashes. -/
theorem foldlM_setBit (key : List UInt8) : ∀ (l : List ℕ) {f : CBloomFilter},
    0 < f.vData.length * 8 → ∃ f', l.foldlM (fun f i => do
      let nIndex ← CBloomFilter.hash f i key
      some { f with vData := setBit f.vData nIndex }) f = some f' ∧ Grows f f' ∧
      ∀ i ∈ l, Bloom.getBit f'.vData (f'.index i key) = true := by
  intro l
  induction l with
  | nil =>
    intro f _
    exact ⟨f, rfl, Grows.refl f, fun i hi => by cases hi⟩
  | cons i l ih =>
    intro f hpos
    have hstep : Grows f { f with vData := setBit f.vData (f.index i key) } :=
      ⟨length_setBit _ _, rfl, id, rfl, rfl, rfl, fun j hj => getBit_setBit hj⟩
    obtain ⟨f', hrun, hgrows, hset⟩ := ih
      (f := { f with vData := setBit f.vData (f.index i key) }) (by rwa [length_setBit])
    refine ⟨f', ?_, hstep.trans hgrows, ?_⟩
    · rw [List.foldlM_cons, hash_eq hpos]
      exact hrun
    · intro j hj
      rcases List.mem_cons.mp hj with rfl | hj
      · rw [hgrows.index, hstep.index]
        exact hgrows.getBit _ (getBit_setBit_self (index_lt hpos j key))
      · exact hset j hj

/-- **`insert`** divides by nothing that is zero, and then the filter contains the key. -/
theorem insert_spec (h : f.Safe) (key : List UInt8) :
    ∃ f', f.insert key = some f' ∧ Grows f f' ∧ f'.Contains key := by
  unfold insert
  by_cases hfull : f.isFull = true
  · rw [if_pos hfull]
    exact ⟨f, rfl, Grows.refl f, .inl hfull⟩
  · rw [if_neg hfull]
    have hpos := h.length_pos (Bool.eq_false_iff.mpr hfull)
    obtain ⟨f', hrun, hgrows, hset⟩ := foldlM_setBit key (List.range f.nHashFuncs.toNat) hpos
    refine ⟨{ f' with isEmpty := false }, ?_, ?_, ?_⟩
    · rw [hrun]
      rfl
    · exact ⟨hgrows.length, hgrows.isFull, fun _ => rfl, hgrows.nHashFuncs, hgrows.nTweak,
        hgrows.nFlags, hgrows.getBit⟩
    · refine .inr ⟨rfl, fun i hi => ?_⟩
      have hi' : i < f'.nHashFuncs.toNat := hi
      rw [hgrows.nHashFuncs] at hi'
      exact hset i (List.mem_range.mpr hi')

/-! ## Matching transactions -/

/-- The script pushes an element of the filter that is not empty. -/
def ContainsElement (f : CBloomFilter) (script : CScript) : Prop :=
  ∃ data ∈ elements script, data ≠ [] ∧ f.Contains data

instance (f : CBloomFilter) (script : CScript) : Decidable (f.ContainsElement script) :=
  inferInstanceAs (Decidable (∃ data ∈ elements script, data ≠ [] ∧ f.Contains data))

theorem containsElement_eq (h : f.Safe) (script : CScript) :
    f.containsElement script = some (decide (f.ContainsElement script)) := by
  have hpure : (fun data => if data.isEmpty then some false else f.contains data) =
      fun data => (pure (!data.isEmpty && decide (f.Contains data)) : Option Bool) := by
    funext data
    cases data with
    | nil => rfl
    | cons b data => exact contains_eq h (b :: data)
  rw [containsElement, hpure, List.anyM_pure]
  refine congrArg some ?_
  rw [Bool.eq_iff_iff, List.any_eq_true, decide_eq_true_iff]
  refine exists_congr fun data => and_congr_right fun _ => ?_
  rw [Bool.and_eq_true, Bool.not_eq_true', List.isEmpty_eq_false_iff, decide_eq_true_iff]

/-- Whether the filter takes up matched outputs. -/
def UpdatesAll (f : CBloomFilter) : Prop := f.nFlags &&& 3 = 1

variable (solver : CScript → Bool) (hash : Uint256)

/-- One output. -/
theorem matchOutput_spec (h : f.Safe) (fFound : Bool) (txout : CTxOut) (i : ℕ) :
    ∃ r, matchOutput solver hash (fFound, f) (txout, i) = some r ∧ Grows f r.2 ∧
      (fFound = true → r.1 = true) ∧
      (f.UpdatesAll → f.ContainsElement txout.scriptPubKey →
        r.2.Contains (outPointBytes ⟨hash, i⟩)) := by
  rw [matchOutput]
  simp only [containsElement_eq h, Option.bind_eq_bind, Option.bind_some, decide_eq_true_eq]
  by_cases hmatch : f.ContainsElement txout.scriptPubKey
  · rw [if_pos hmatch]
    split
    · obtain ⟨f', hrun, hgrows, hcontains⟩ := insert_spec h (outPointBytes ⟨hash, i⟩)
      rw [hrun]
      exact ⟨_, rfl, hgrows, fun _ => rfl, fun _ _ => hcontains⟩
    · next hflags =>
      refine ⟨_, rfl, Grows.refl f, fun _ => rfl, fun hall _ => ?_⟩
      exact absurd (.inl hall) hflags
  · rw [if_neg hmatch]
    exact ⟨_, rfl, Grows.refl f, id, fun _ hc => absurd hc hmatch⟩

/-- Several outputs. -/
theorem foldlM_matchOutput : ∀ (l : List (CTxOut × ℕ)) {f : CBloomFilter} (fFound : Bool), f.Safe →
    ∃ r, l.foldlM (matchOutput solver hash) (fFound, f) = some r ∧ Grows f r.2 ∧
      (fFound = true → r.1 = true) := by
  intro l
  induction l with
  | nil =>
    intro f fFound _
    exact ⟨_, rfl, Grows.refl f, id⟩
  | cons output l ih =>
    intro f fFound h
    obtain ⟨⟨found, f₁⟩, hrun, hgrows, hfound, -⟩ :=
      matchOutput_spec solver hash h fFound output.1 output.2
    obtain ⟨r, hrest, hgrows', hfound'⟩ := ih found (hgrows.safe h)
    refine ⟨r, ?_, hgrows.trans hgrows', fun hf => hfound' (hfound hf)⟩
    rw [List.foldlM_cons, hrun]
    exact hrest

/-- The filter when the loop over the outputs comes to output `n`. -/
def beforeOutput (f : CBloomFilter) (tx : CTransaction) (n : ℕ) : Option CBloomFilter :=
  (f.matchOutputs solver tx.hash (tx.vout.take n) false).map Prod.snd

/-- What was found before does not change the filter. -/
theorem foldlM_matchOutput_snd : ∀ (l : List (CTxOut × ℕ)) (f : CBloomFilter) (b b' : Bool),
    (l.foldlM (matchOutput solver hash) (b, f)).map Prod.snd =
      (l.foldlM (matchOutput solver hash) (b', f)).map Prod.snd := by
  intro l
  induction l with
  | nil =>
    intro f b b'
    rfl
  | cons output l ih =>
    intro f b b'
    rw [List.foldlM_cons, List.foldlM_cons, matchOutput, matchOutput]
    cases f.containsElement output.1.scriptPubKey with
    | none => rfl
    | some found =>
      cases found with
      | true => rfl
      | false => exact ih f b b'

/-- A filter that contains nothing stays as it is. -/
theorem foldlM_matchOutput_of_none (h : f.Safe) (hnone : ∀ key, ¬ f.Contains key) :
    ∀ (l : List (CTxOut × ℕ)) (b : Bool),
    l.foldlM (matchOutput solver hash) (b, f) = some (b, f) := by
  intro l
  induction l with
  | nil =>
    intro b
    rfl
  | cons output l ih =>
    intro b
    have hmatch : f.containsElement output.1.scriptPubKey = some false := by
      rw [containsElement_eq h, decide_eq_false]
      rintro ⟨data, -, -, hc⟩
      exact hnone data hc
    rw [List.foldlM_cons, matchOutput, hmatch]
    exact ih b

/-- **The loop over the outputs** takes up the outpoint of a matched output. -/
theorem matchOutputs_spec (h : f.Safe) (vout : List CTxOut) (fFound : Bool) :
    ∃ r, f.matchOutputs solver hash vout fFound = some r ∧ Grows f r.2 ∧
      ∀ n txout, vout[n]? = some txout → ∀ f₁, f.UpdatesAll →
        (f.matchOutputs solver hash (vout.take n) false).map Prod.snd = some f₁ →
        f₁.ContainsElement txout.scriptPubKey → r.2.Contains (outPointBytes ⟨hash, n⟩) := by
  obtain ⟨r, hrun, hgrows, -⟩ := foldlM_matchOutput solver hash vout.zipIdx fFound h
  refine ⟨r, hrun, hgrows, ?_⟩
  intro n txout hn f₁ hall hbefore hmatch
  -- the outputs before it, the output, and those behind it
  have hlt : n < vout.length := (List.getElem?_eq_some_iff.mp hn).1
  have hsplit : vout.zipIdx = (vout.take n).zipIdx ++ (txout, n) :: (vout.drop (n + 1)).zipIdx (n + 1) := by
    have hget : vout[n] = txout := (List.getElem?_eq_some_iff.mp hn).2
    have hlen : (vout.take n).length = n := List.length_take_of_le hlt.le
    conv_lhs => rw [← List.take_append_drop n vout, List.drop_eq_getElem_cons hlt, hget,
      List.zipIdx_append, hlen, List.zipIdx_cons, Nat.zero_add]
  obtain ⟨⟨found, f₂⟩, hrun₁, hgrows₁, -⟩ :=
    foldlM_matchOutput solver hash (vout.take n).zipIdx fFound h
  have hsame : f₂ = f₁ := by
    have hsnd := foldlM_matchOutput_snd solver hash (vout.take n).zipIdx f fFound false
    rw [hrun₁] at hsnd
    exact Option.some.inj (hsnd.trans hbefore)
  subst hsame
  have hall₂ : f₂.UpdatesAll := by
    rw [UpdatesAll, hgrows₁.nFlags]
    exact hall
  obtain ⟨⟨found₃, f₃⟩, hrun₂, hgrows₂, -, htaken⟩ :=
    matchOutput_spec solver hash (hgrows₁.safe h) found txout n
  obtain ⟨r', hrun₃, hgrows₃, -⟩ := foldlM_matchOutput solver hash
    ((vout.drop (n + 1)).zipIdx (n + 1)) found₃ (hgrows₂.safe (hgrows₁.safe h))
  have hwhole : f.matchOutputs solver hash vout fFound = some r' := by
    rw [matchOutputs, hsplit, List.foldlM_append, hrun₁]
    show ((txout, n) :: (vout.drop (n + 1)).zipIdx (n + 1)).foldlM (matchOutput solver hash)
      (found, f₂) = some r'
    rw [List.foldlM_cons, hrun₂]
    exact hrun₃
  have hrun' : f.matchOutputs solver hash vout fFound = some r := hrun
  rw [hwhole] at hrun'
  obtain rfl := Option.some.inj hrun'
  exact hgrows₃.contains (htaken hall₂ hmatch)

/-- **`IsRelevantAndUpdate`** finds what spends an outpoint of the filter, and takes up outputs that
match. -/
theorem isRelevantAndUpdate_spec (h : f.Safe) (tx : CTransaction) :
    ∃ r, f.isRelevantAndUpdate solver tx = some r ∧ Grows f r.2 ∧
      ((∃ prevout ∈ tx.prevouts, f.Contains (outPointBytes prevout)) → r.1 = true) ∧
      ∀ n txout, tx.vout[n]? = some txout → ∀ f₁, f.UpdatesAll →
        f.beforeOutput solver tx n = some f₁ → f₁.ContainsElement txout.scriptPubKey →
        r.2.Contains (outPointBytes ⟨tx.hash, n⟩) := by
  rw [isRelevantAndUpdate]
  by_cases hfull : f.isFull = true
  · rw [if_pos hfull]
    exact ⟨_, rfl, Grows.refl f, fun _ => rfl, fun _ _ _ _ _ _ _ => .inl hfull⟩
  · rw [if_neg hfull]
    by_cases hempty : f.isEmpty = true
    · rw [if_pos hempty]
      have hnone : ∀ key, ¬ f.Contains key := by
        rintro key (hc | ⟨hc, -⟩)
        · exact hfull hc
        · rw [hempty] at hc
          cases hc
      refine ⟨_, rfl, Grows.refl f, ?_, ?_⟩
      · rintro ⟨prevout, -, hc⟩
        exact absurd hc (hnone _)
      · -- the loop would not change an empty filter
        intro n txout _ f₁ _ hbefore hmatch
        have hsame : f.beforeOutput solver tx n = some f := by
          rw [beforeOutput, matchOutputs, foldlM_matchOutput_of_none solver tx.hash h hnone]
          rfl
        rw [hsame] at hbefore
        obtain rfl := Option.some.inj hbefore
        obtain ⟨data, -, -, hc⟩ := hmatch
        exact absurd hc (hnone data)
    · rw [if_neg hempty]
      obtain ⟨⟨found, f'⟩, hrun, hgrows, htaken⟩ := matchOutputs_spec solver tx.hash h tx.vout
        (decide (f.Contains (leBytes 32 tx.hash.toNat)))
      simp only [contains_eq h, Option.bind_eq_bind, Option.bind_some, hrun]
      by_cases hfound : found = true
      · rw [if_pos hfound]
        exact ⟨_, rfl, hgrows, fun _ => rfl, htaken⟩
      · rw [if_neg hfound]
        have hsafe := hgrows.safe h
        have hpure : (fun txin : CTxIn => do
            if ← f'.contains (outPointBytes txin.prevout) then some true
            else f'.containsElement txin.scriptSig) =
            fun txin => (pure (decide (f'.Contains (outPointBytes txin.prevout)) ||
              decide (f'.ContainsElement txin.scriptSig)) : Option Bool) := by
          funext txin
          rw [contains_eq hsafe, containsElement_eq hsafe]
          cases decide (f'.Contains (outPointBytes txin.prevout)) with
          | true => rfl
          | false => rfl
        have hany := congrArg tx.vin.anyM hpure
        rw [List.anyM_pure] at hany
        simp only [Option.bind_eq_bind] at hany
        rw [hany]
        refine ⟨_, rfl, hgrows, ?_, htaken⟩
        rintro ⟨prevout, hin, hc⟩
        obtain ⟨txin, htxin, rfl⟩ := List.mem_map.mp hin
        refine List.any_eq_true.mpr ⟨txin, htxin, ?_⟩
        rw [Bool.or_eq_true, decide_eq_true_iff]
        exact .inl (hgrows.contains hc)

/-! ## Runs -/

/-- The filter after some transactions. -/
def after (f : CBloomFilter) (txs : List CTransaction) : Option CBloomFilter :=
  (f.matchAll solver txs).map Prod.snd

theorem safe_updateEmptyFull (f : CBloomFilter) : f.updateEmptyFull.Safe := by
  intro hfull hnil
  have hnil' : f.vData = [] := hnil
  have hall : f.vData.all (· == 0xff) = false := hfull
  rw [hnil'] at hall
  cases hall

theorem matchAll_cons {tx : CTransaction} {r : Bool × CBloomFilter}
    (h : f.isRelevantAndUpdate solver tx = some r) (txs : List CTransaction) :
    f.matchAll solver (tx :: txs) =
      (r.2.matchAll solver txs).map fun r' => (r.1 :: r'.1, r'.2) := by
  rw [matchAll, h, Option.bind_eq_bind, Option.bind_some]
  show (r.2.matchAll solver txs).bind _ = _
  cases r.2.matchAll solver txs with
  | none => rfl
  | some r' => rfl

theorem matchAll_spec : ∀ (txs : List CTransaction) {f : CBloomFilter}, f.Safe →
    ∃ r, f.matchAll solver txs = some r ∧ Grows f r.2 ∧ r.1.length = txs.length := by
  intro txs
  induction txs with
  | nil =>
    intro f _
    exact ⟨_, rfl, Grows.refl f, rfl⟩
  | cons tx txs ih =>
    intro f h
    obtain ⟨⟨relevant, f₁⟩, hrun, hgrows, -, -⟩ := isRelevantAndUpdate_spec solver h tx
    obtain ⟨⟨relevants, f₂⟩, hrest, hgrows', hlen⟩ := ih (hgrows.safe h)
    refine ⟨(relevant :: relevants, f₂), ?_, hgrows.trans hgrows', ?_⟩
    · rw [matchAll_cons solver hrun, hrest]
      rfl
    · rw [List.length_cons, List.length_cons, hlen]

theorem matchAll_append : ∀ (early late : List CTransaction) (f : CBloomFilter)
    {r : List Bool × CBloomFilter}, f.matchAll solver early = some r →
    f.matchAll solver (early ++ late) =
      (r.2.matchAll solver late).map fun r' => (r.1 ++ r'.1, r'.2) := by
  intro early
  induction early with
  | nil =>
    intro late f r h
    obtain rfl := Option.some.inj h
    rw [List.nil_append]
    cases f.matchAll solver late with
    | none => rfl
    | some r' => rfl
  | cons tx early ih =>
    intro late f r h
    cases hrun : f.isRelevantAndUpdate solver tx with
    | none =>
      rw [matchAll, hrun] at h
      cases h
    | some r₁ =>
      rw [matchAll_cons solver hrun] at h
      obtain ⟨r₂, hrest, rfl⟩ := Option.map_eq_some_iff.mp h
      rw [List.cons_append, matchAll_cons solver hrun, ih late r₁.2 hrest, Option.map_map]
      rfl

/-- A transaction behind others. -/
theorem matchAll_getElem? (early late : List CTransaction) (tx : CTransaction)
    {f f₁ : CBloomFilter} {r : Bool × CBloomFilter} {rs : List Bool}
    (hearly : f.matchAll solver early = some (rs, f₁)) (hlen : rs.length = early.length)
    (htx : f₁.isRelevantAndUpdate solver tx = some r) (h : r.2.Safe) :
    ∃ whole, f.matchAll solver (early ++ tx :: late) = some whole ∧
      whole.1[early.length]? = some r.1 := by
  obtain ⟨r', hlate, -, -⟩ := matchAll_spec solver late h
  refine ⟨(rs ++ (r.1 :: r'.1), r'.2), ?_, ?_⟩
  · rw [matchAll_append solver early _ f hearly, matchAll_cons solver htx, hlate]
    rfl
  · rw [List.getElem?_append_right hlen.le, hlen, Nat.sub_self]
    rfl

/-- **Filters of light clients.**  A filter that came from a peer is never asked for a bit modulo
zero, what it contains it goes on to contain, and a transaction is relevant if it spends an output
that pushed a non-empty element of the filter. -/
theorem matchAll_complete (f : CBloomFilter) (hall : f.UpdatesAll) (txs : List CTransaction) :
    (∃ r, f.updateEmptyFull.matchAll solver txs = some r ∧ r.1.length = txs.length) ∧
    (∀ early late, txs = early ++ late → ∃ f₁ f₂, f.updateEmptyFull.after solver early = some f₁ ∧
      f.updateEmptyFull.after solver txs = some f₂ ∧ ∀ key, (∃ b, f₁.contains key = some b) ∧
        (f₁.contains key = some true → f₂.contains key = some true)) ∧
    ∀ early tx mid tx' late, txs = early ++ tx :: (mid ++ tx' :: late) →
      ∀ n txout data f₁ f₂, tx.vout[n]? = some txout → data ∈ elements txout.scriptPubKey →
        data ≠ [] → f.updateEmptyFull.after solver early = some f₁ →
        f₁.beforeOutput solver tx n = some f₂ → f₂.contains data = some true →
        ⟨tx.hash, n⟩ ∈ tx'.prevouts →
        ∃ r, f.updateEmptyFull.matchAll solver txs = some r ∧
          r.1[early.length + 1 + mid.length]? = some true := by
  have hsafe := safe_updateEmptyFull f
  refine ⟨?_, ?_, ?_⟩
  · obtain ⟨r, hrun, -, hlen⟩ := matchAll_spec solver txs hsafe
    exact ⟨r, hrun, hlen⟩
  · rintro early late rfl
    obtain ⟨r₁, hrun₁, hgrows₁, -⟩ := matchAll_spec solver early hsafe
    obtain ⟨r₂, hrun₂, hgrows₂, -⟩ := matchAll_spec solver late (hgrows₁.safe hsafe)
    refine ⟨r₁.2, r₂.2, ?_, ?_, fun key => ⟨⟨_, contains_eq (hgrows₁.safe hsafe) key⟩, ?_⟩⟩
    · rw [after, hrun₁, Option.map_some]
    · rw [after, matchAll_append solver early late _ hrun₁, hrun₂]
      rfl
    · rw [contains_eq (hgrows₁.safe hsafe), contains_eq (hgrows₂.safe (hgrows₁.safe hsafe)),
        Option.some.injEq, Option.some.injEq, decide_eq_true_iff, decide_eq_true_iff]
      exact hgrows₂.contains
  · rintro early tx mid tx' late rfl n txout data f₁ f₂ hn hdata hne hearly hbefore hc hspends
    -- the filter takes up the outpoint
    obtain ⟨⟨rs, f₁'⟩, hrun₁, hgrows₁, hlen₁⟩ := matchAll_spec solver early hsafe
    rw [after, hrun₁] at hearly
    obtain rfl : f₁' = f₁ := Option.some.inj hearly
    have hsafe₁ := hgrows₁.safe hsafe
    have hall₁ : f₁'.UpdatesAll := by
      rw [UpdatesAll, hgrows₁.nFlags]
      exact hall
    obtain ⟨⟨relevant, g⟩, hrun₂, hgrows₂, -, htaken⟩ := isRelevantAndUpdate_spec solver hsafe₁ tx
    have hsafe₂ : f₂.Safe := by
      obtain ⟨r, hr, hg, -⟩ :=
        foldlM_matchOutput solver tx.hash (tx.vout.take n).zipIdx false hsafe₁
      rw [beforeOutput, matchOutputs, hr] at hbefore
      obtain rfl := Option.some.inj hbefore
      exact hg.safe hsafe₁
    rw [contains_eq hsafe₂, Option.some.injEq, decide_eq_true_iff] at hc
    have hoout := htaken n txout hn f₂ hall₁ hbefore ⟨data, hdata, hne, hc⟩
    -- it is still there when the spender comes
    have hsafe₃ := hgrows₂.safe hsafe₁
    obtain ⟨⟨rs', g'⟩, hrun₃, hgrows₃, hlen₃⟩ := matchAll_spec solver mid hsafe₃
    obtain ⟨⟨relevant', g''⟩, hrun₄, hgrows₄, hrelevant, -⟩ :=
      isRelevantAndUpdate_spec solver (hgrows₃.safe hsafe₃) tx'
    have hupto : f.updateEmptyFull.matchAll solver (early ++ tx :: mid) =
        some (rs ++ relevant :: rs', g') := by
      rw [matchAll_append solver early _ _ hrun₁, matchAll_cons solver hrun₂, hrun₃]
      rfl
    obtain ⟨whole, hwhole, hget⟩ := matchAll_getElem? solver
      (early ++ tx :: mid) late tx' hupto (by
        rw [List.length_append, List.length_append, List.length_cons, List.length_cons, hlen₁,
          hlen₃]) hrun₄ (hgrows₄.safe (hgrows₃.safe hsafe₃))
    have hassoc : early ++ tx :: (mid ++ tx' :: late) = early ++ tx :: mid ++ tx' :: late := by
      rw [List.append_assoc, List.cons_append]
    have hpos : early.length + 1 + mid.length = (early ++ tx :: mid).length := by
      rw [List.length_append, List.length_cons]
      omega
    rw [hassoc, hpos]
    refine ⟨whole, hwhole, hget.trans ?_⟩
    rw [hrelevant ⟨_, hspends, hgrows₃.contains hoout⟩]

/-- A filter with the bit of the byte `0xaa`. -/
def watched : CBloomFilter := ⟨[0, 128, 0, 0, 0, 0, 0, 0], false, true, 1, 0, 1⟩

/-- A transaction that pushes the byte `0xaa`, and one that spends its output. -/
def pays : CTransaction := ⟨1, 1, [⟨⟨3, 0⟩, [], 0⟩], [⟨5, [1, 0xaa]⟩], 0⟩

def collects : CTransaction := ⟨2, 1, [⟨⟨1, 0⟩, [], 0⟩], [], 0⟩

theorem matchAll_complete_watched :
    ∃ r, watched.updateEmptyFull.matchAll (fun _ => false) [pays, collects] = some r ∧
      r.1[1]? = some true :=
  (matchAll_complete (fun _ => false) watched rfl [pays, collects]).2.2 [] pays [] collects [] rfl
    0 ⟨5, [1, 0xaa]⟩ [0xaa] watched.updateEmptyFull watched.updateEmptyFull rfl (by decide)
    (by decide) rfl rfl (by decide) (by decide)

/-- A filter with the bit of the element that has no bytes. -/
def emptyWatched : CBloomFilter := ⟨[1, 0, 0, 0, 0, 0, 0, 0], false, false, 1, 0, 1⟩

/-- A transaction that pushes the element without bytes. -/
def paysEmpty : CTransaction := ⟨1, 1, [⟨⟨3, 0⟩, [], 0⟩], [⟨5, [0]⟩], 0⟩

theorem paysEmpty_irrelevant : emptyWatched.isRelevantAndUpdate (fun _ => false) paysEmpty =
    some (false, emptyWatched) := by rfl

theorem collects_irrelevant : emptyWatched.isRelevantAndUpdate (fun _ => false) collects =
    some (false, emptyWatched) := by rfl

/-- An element without bytes does not count: the filter contains it, and neither the transaction
that pushes it nor the one that spends the output is relevant. -/
theorem not_matchAll_asStated :
    emptyWatched.UpdatesAll ∧ [] ∈ elements [0] ∧ paysEmpty.vout[0]? = some ⟨5, [0]⟩ ∧
    emptyWatched.updateEmptyFull.beforeOutput (fun _ => false) paysEmpty 0 =
      some emptyWatched.updateEmptyFull ∧
    emptyWatched.updateEmptyFull.contains [] = some true ∧
    ⟨paysEmpty.hash, 0⟩ ∈ collects.prevouts ∧
    emptyWatched.updateEmptyFull.matchAll (fun _ => false) [paysEmpty, collects] =
      some ([false, false], emptyWatched) := by
  have hupdate : emptyWatched.updateEmptyFull = emptyWatched := by decide
  rw [hupdate]
  refine ⟨rfl, by decide, rfl, rfl, rfl, by decide, ?_⟩
  rw [matchAll_cons _ paysEmpty_irrelevant, matchAll_cons _ collects_irrelevant]
  rfl

end CBloomFilter

end Bloom
