/-
# The transaction tokenizer

`Tx::Iterator` walks over the fields of a transaction, or of all transactions of a block,
without copying them (`libs/server/primitives/FastTransaction.cpp` and `TxIterator_p.h`).
`TxTokenizer::next` decides from the previous tag, from where the transaction started and
from two counters what the next field is.

Pointers into the buffer are offsets from its start.  `m_txStart` has no value until the
first transaction of a block starts.

* `yields_tokens` : the fields of one transaction, wherever it is in the buffer;
* `iterator_exact` : an iterator over a transaction, and one over a block, go through
  exactly the fields of the transactions.
-/
import Hub.FastBlock

open ByteCodec Serialization Streaming

/-- `Tx::Component`. -/
inductive Tx.Component where
  | txVersion
  | prevTxHash
  | prevTxIndex
  | txInScript
  | sequence
  | outputValue
  | outputScript
  | lockTime
  | finish
  deriving DecidableEq, Repr

/-- `TxTokenizer`.  There is no tag before the first call on a single transaction. -/
structure TxTokenizer where
  data : ConstBuffer
  txStart : Option ℤ
  currentTokenStart : ℤ
  currentTokenEnd : ℤ
  numInputsLeft : ℤ
  numOutputsLeft : ℤ
  tag : Option Tx.Component

namespace TxTokenizer

/-! ## The state machine -/

/-- One of the longer forms of a compact size: a number of `k` bytes behind the first. -/
def readLong (buf : List UInt8) (pos : ℤ) (k : ℕ) : Except Fault (ℕ × ℤ) :=
  if pos + 1 + k > buf.length then
    .error (.runtimeError "readCompactSize not enough bytes")
  else .ok (FastBlock.readAt buf (pos + 1).toNat k, pos + 1 + k)

/-- `readCompactSize`: the number at `pos` and the position behind it.  The first byte is
read without a look at the end of the buffer. -/
def readCompactSize (buf : List UInt8) (pos : ℤ) : Except Fault (ℕ × ℤ) :=
  if pos < 0 then .error .outOfBounds
  else
    match buf[pos.toNat]? with
    | none => .error .outOfBounds
    | some b =>
        if b < 253 then .ok (b.toNat, pos + 1)
        else if b = 253 then readLong buf pos 2
        else if b = 254 then readLong buf pos 4
        else readLong buf pos 8

/-- `TxTokenizer::checkSpaceForTag`. -/
def checkSpaceForTag (t : TxTokenizer) : Except Fault TxTokenizer :=
  if t.tag ≠ some .finish ∧ t.currentTokenEnd > t.data.bytes.length then
    .error (.runtimeError "Tx data missing")
  else .ok t

/-- A field of `size` bytes. -/
def advance (t : TxTokenizer) (size : ℤ) (tag : Tx.Component) : Except Fault TxTokenizer :=
  checkSpaceForTag { t with currentTokenEnd := t.currentTokenEnd + size, tag := some tag }

/-- A script, behind its length. -/
def advanceScript (t : TxTokenizer) (tag : Tx.Component) : Except Fault TxTokenizer := do
  let (scriptLength, pos) ← readCompactSize t.data.bytes t.currentTokenEnd
  advance { t with currentTokenStart := pos, currentTokenEnd := pos } (toInt32 scriptLength) tag

/-- Behind the version: the number of inputs.  Says whether an input starts. -/
def startInputs (t : TxTokenizer) : Except Fault (TxTokenizer × Bool) :=
  if t.txStart = some (t.currentTokenStart - 4) then do
    let (n, pos) ← readCompactSize t.data.bytes t.currentTokenEnd
    .ok ({ t with
      numInputsLeft := toInt32 n, currentTokenStart := pos, currentTokenEnd := pos }, true)
  else .ok (t, false)

/-- Behind a sequence: the next input, or the number of outputs.  Says whether an input
and whether an output starts. -/
def afterSequence (t : TxTokenizer) (startInput : Bool) :
    Except Fault (TxTokenizer × Bool × Bool) :=
  if t.tag = some .sequence then
    let left := t.numInputsLeft - 1
    if left > 0 then .ok ({ t with numInputsLeft := left }, true, false)
    else do
      let (n, pos) ← readCompactSize t.data.bytes t.currentTokenEnd
      .ok ({ t with
        numInputsLeft := left, numOutputsLeft := toInt32 n, currentTokenStart := pos,
        currentTokenEnd := pos }, startInput, true)
  else .ok (t, startInput, false)

/-- The rest of `next`: the field that follows the previous one. -/
def nextField (t : TxTokenizer) (startInput startOutput : Bool) : Except Fault TxTokenizer :=
  if startInput then t.advance 32 .prevTxHash
  else
    match t.tag with
    | some .prevTxHash => t.advance 4 .prevTxIndex
    | some .prevTxIndex => t.advanceScript .txInScript
    | some .txInScript => t.advance 4 .sequence
    | some .outputScript =>
        let left := t.numOutputsLeft - 1
        if left > 0 then advance { t with numOutputsLeft := left } 8 .outputValue
        else advance { t with numOutputsLeft := left } 4 .lockTime
    | tag =>
        if startOutput then t.advance 8 .outputValue
        else if tag = some .outputValue then t.advanceScript .outputScript
        else if tag = some .lockTime then .ok { t with tag := some .finish }
        else .error .assertion

/-- `next` in the middle of a transaction. -/
def nextInside (t : TxTokenizer) : Except Fault TxTokenizer := do
  let (t, startInput) ← t.startInputs
  let (t, startInput, startOutput) ← t.afterSequence startInput
  t.nextField startInput startOutput

/-- `TxTokenizer::next`. -/
def next (t : TxTokenizer) : Except Fault TxTokenizer :=
  if t.currentTokenEnd + 1 ≥ t.data.bytes.length then .ok { t with tag := some .finish }
  else if t.txStart = some t.currentTokenEnd ∨ t.tag = some .finish then
    advance { t with
      currentTokenStart := t.currentTokenEnd, txStart := some t.currentTokenEnd } 4 .txVersion
  else nextInside { t with currentTokenStart := t.currentTokenEnd }

/-- The constructor on a transaction. -/
def ofTx (data : ConstBuffer) : TxTokenizer where
  data := data
  txStart := some 0
  currentTokenStart := 0
  currentTokenEnd := 0
  numInputsLeft := -1
  numOutputsLeft := -1
  tag := none

/-- `readCompactSizeSize`. -/
def readCompactSizeSize (b : UInt8) : ℕ :=
  if b < 253 then 1 else if b = 253 then 3 else if b = 254 then 5 else 9

/-- The constructor on a block. -/
def ofBlock (block : FastBlock) : Except Fault TxTokenizer :=
  match block.data.bytes[80]? with
  | none => .error .assertion
  | some b =>
      .ok { data := block.data
            txStart := none
            currentTokenStart := 80 + readCompactSizeSize b
            currentTokenEnd := 80 + readCompactSizeSize b
            numInputsLeft := -1
            numOutputsLeft := -1
            tag := some .finish }

/-! ### Accessors -/

/-- The bytes of a `ConstBuffer` from offset `start` to offset `stop`. -/
def bytesBetween (t : TxTokenizer) (start stop : ℤ) : List UInt8 :=
  slice t.data.bytes start.toNat stop.toNat

/-- `Tx::Iterator::byteData`. -/
def byteData (t : TxTokenizer) : List UInt8 :=
  t.bytesBetween t.currentTokenStart t.currentTokenEnd

/-- `Tx::Iterator::prevTx`: the bytes from the start of the transaction on. -/
def prevTx (t : TxTokenizer) : Option (List UInt8) :=
  t.txStart.map fun start => t.bytesBetween start t.currentTokenEnd

/-- `isConstBytes`. -/
def isConstBytes : Option Tx.Component → Bool
  | some .txVersion | some .lockTime | some .prevTxIndex | some .sequence => true
  | _ => false

/-- `Tx::Iterator::longData`. -/
def longData (t : TxTokenizer) : Except Fault ℕ :=
  if t.tag = some .outputValue then
    .ok (FastBlock.readAt t.data.bytes t.currentTokenStart.toNat 8)
  else if isConstBytes t.tag then
    .ok (FastBlock.readAt t.data.bytes t.currentTokenStart.toNat 4)
  else do
    let (n, _) ← readCompactSize t.data.bytes t.currentTokenStart
    .ok n

/-- `Tx::Iterator::uint256Data`. -/
def uint256Data (t : TxTokenizer) : Except Fault Uint256 :=
  if t.currentTokenEnd - t.currentTokenStart ≥ 32 then
    .ok (BitVec.ofNat 256 (FastBlock.readAt t.data.bytes t.currentTokenStart.toNat 32))
  else .error .assertion

/-! ## What the iterator shows -/

/-- A field of a transaction. -/
inductive Token where
  | txVersion (nVersion : Int32)
  | prevTxHash (hash : Uint256)
  | prevTxIndex (n : ℕ)
  | txInScript (script : List UInt8)
  | sequence (nSequence : UInt32)
  | outputValue (nValue : ℤ)
  | outputScript (script : List UInt8)
  | lockTime (nLockTime : UInt32)

namespace Token

def tag : Token → Tx.Component
  | txVersion _ => .txVersion
  | prevTxHash _ => .prevTxHash
  | prevTxIndex _ => .prevTxIndex
  | txInScript _ => .txInScript
  | sequence _ => .sequence
  | outputValue _ => .outputValue
  | outputScript _ => .outputScript
  | lockTime _ => .lockTime

/-- The bytes of the field. -/
def bytes : Token → List UInt8
  | txVersion v => leBytes 4 v.toUInt32.toNat
  | prevTxHash h => leBytes 32 h.toNat
  | prevTxIndex n => leBytes 4 n
  | txInScript script => script
  | sequence n => leBytes 4 n.toNat
  | outputValue v => leBytes 8 (v % 2 ^ 64).toNat
  | outputScript script => script
  | lockTime n => leBytes 4 n.toNat

/-- The value of a field that holds a number, as an unsigned number. -/
def long? : Token → Option ℕ
  | txVersion v => some v.toUInt32.toNat
  | prevTxIndex n => some n
  | sequence n => some n.toNat
  | outputValue v => some (v % 2 ^ 64).toNat
  | lockTime n => some n.toNat
  | _ => none

/-- The value of a field that holds a hash. -/
def hash? : Token → Option Uint256
  | prevTxHash h => some h
  | _ => none

end Token

/-- The fields of an input. -/
def inputTokens (i : CTxIn) : List Token :=
  [.prevTxHash i.prevout.hash, .prevTxIndex i.prevout.n, .txInScript i.scriptSig,
    .sequence i.nSequence]

/-- The fields of an output. -/
def outputTokens (o : CTxOut) : List Token := [.outputValue o.nValue, .outputScript o.scriptPubKey]

/-- The fields of a transaction, in order. -/
def tokens (tx : CTransaction) : List Token :=
  .txVersion tx.nVersion :: (tx.vin.flatMap inputTokens ++ (tx.vout.flatMap outputTokens
    ++ [.lockTime tx.nLockTime]))

/-- The tokenizer is at the field `tok`: its tag and what the accessors return. -/
structure Shows (t : TxTokenizer) (tok : Token) : Prop where
  tag : t.tag = some tok.tag
  byteData : t.byteData = tok.bytes
  longData : ∀ n, tok.long? = some n → t.longData = .ok n
  uint256Data : ∀ h, tok.hash? = some h → t.uint256Data = .ok h

/-- Calls of `next` show the fields one after the other, and lead from `t` to `t'`. -/
def Yields : TxTokenizer → List Token → TxTokenizer → Prop
  | t, [], t' => t = t'
  | t, tok :: toks, t' => ∃ u, t.next = .ok u ∧ u.Shows tok ∧ Yields u toks t'

theorem Yields.append {t u v : TxTokenizer} {l₁ l₂ : List Token} (h₁ : Yields t l₁ u)
    (h₂ : Yields u l₂ v) : Yields t (l₁ ++ l₂) v := by
  induction l₁ generalizing t with
  | nil =>
    obtain rfl : t = u := h₁
    exact h₂
  | cons tok l₁ ih =>
    obtain ⟨w, hw, hshow, hrest⟩ := h₁
    exact ⟨w, hw, hshow, ih hrest⟩

/-- Calls of `next` go through whole transactions: the fields of each one and then the end,
where `prevTx` is the transaction. -/
def YieldsAll : TxTokenizer → List CTransaction → TxTokenizer → Prop
  | t, [], t' => t = t'
  | t, tx :: vtx, t' => ∃ u v, Yields t (tokens tx) u ∧ u.next = .ok v ∧
      v.tag = some .finish ∧ v.prevTx = some tx.serialize ∧ YieldsAll v vtx t'

/-- At the end for ever. -/
def Ended (t : TxTokenizer) : Prop := t.tag = some .finish ∧ t.next = .ok t

/-! ## One call -/

theorem readLong_spec {buf rest : List UInt8} {first : UInt8} {pos k n : ℕ}
    (h : buf.drop pos = first :: leBytes k n ++ rest) (hn : n < 256 ^ k) :
    readLong buf pos k = .ok (n, (pos + 1 + k : ℕ)) := by
  have hlen : buf.length - pos = 1 + k + rest.length := by
    rw [← List.length_drop, h]
    simp
    omega
  have hdrop : buf.drop (pos + 1) = leBytes k n ++ rest := by
    rw [← List.drop_drop, h]
    rfl
  have hread := FastBlock.readAt_of_drop hdrop
  rw [length_leBytes, leNat_leBytes k n hn] at hread
  have hpos : ((pos : ℤ) + 1).toNat = pos + 1 := by omega
  rw [readLong, if_neg (by omega), hpos, hread]
  push_cast
  rfl

/-- **The reader meets the writer**, also at the end of the buffer. -/
theorem readCompactSize_spec {buf rest : List UInt8} {pos n : ℕ} (hn : n < 2 ^ 64)
    (h : buf.drop pos = writeCompactSize n ++ rest) :
    readCompactSize buf pos = .ok (n, (pos + (writeCompactSize n).length : ℕ)) := by
  have hfirst : ∀ {first : UInt8} {bytes : List UInt8}, buf.drop pos = first :: bytes →
      buf[(pos : ℤ).toNat]? = some first := by
    intro first bytes hd
    rw [Int.toNat_natCast, ← List.head?_drop, hd]
    rfl
  have hneg : ¬ (pos : ℤ) < 0 := by omega
  unfold writeCompactSize at h ⊢
  split_ifs at h ⊢ with h₁ h₂ h₃
  · have hlt : UInt8.ofNat n < 253 := by
      rw [UInt8.lt_iff_toNat_lt, UInt8.toNat_ofNat']
      show n % 256 < 253
      omega
    have hval : (UInt8.ofNat n).toNat = n := by
      rw [UInt8.toNat_ofNat']
      omega
    rw [readCompactSize, if_neg hneg, hfirst h]
    simp only [hlt, if_true, hval]
    rfl
  · rw [readCompactSize, if_neg hneg, hfirst h]
    exact readLong_spec h (by omega)
  · rw [readCompactSize, if_neg hneg, hfirst h]
    exact readLong_spec h (by omega)
  · rw [readCompactSize, if_neg hneg, hfirst h]
    exact readLong_spec h (by omega)

/-- What the type of the field allows. -/
def Token.Typed : Token → Prop
  | prevTxIndex n => n < 2 ^ 32
  | _ => True

/-- The tokenizer shows the field whose bytes are between its two pointers. -/
theorem shows_of_drop {t : TxTokenizer} {tok : Token} {s : ℕ} {rest : List UInt8}
    (htag : t.tag = some tok.tag) (hstart : t.currentTokenStart = s)
    (hend : t.currentTokenEnd = (s + tok.bytes.length : ℕ))
    (h : t.data.bytes.drop s = tok.bytes ++ rest) (htyped : tok.Typed) : t.Shows tok := by
  have hread : ∀ {k n : ℕ}, tok.bytes = leBytes k n → n < 256 ^ k →
      FastBlock.readAt t.data.bytes t.currentTokenStart.toNat k = n := by
    intro k n hbytes hn
    have hread := FastBlock.readAt_of_drop h
    rw [hbytes, length_leBytes, leNat_leBytes k n hn] at hread
    rw [hstart, Int.toNat_natCast, hread]
  refine ⟨htag, ?_, ?_, ?_⟩
  · rw [byteData, bytesBetween, hstart, hend, Int.toNat_natCast, Int.toNat_natCast, slice,
      List.drop_take, Nat.add_sub_cancel_left, h, List.take_left]
  · intro n hn
    cases tok with
    | txVersion v =>
      cases hn
      have hv := v.toUInt32.toNat_lt
      rw [longData, htag, if_neg (by simp [Token.tag]), if_pos (by rfl), hread rfl (by omega)]
    | prevTxIndex m =>
      cases hn
      rw [longData, htag, if_neg (by simp [Token.tag]), if_pos (by rfl), hread rfl htyped]
    | sequence v =>
      cases hn
      have hv := v.toNat_lt
      rw [longData, htag, if_neg (by simp [Token.tag]), if_pos (by rfl), hread rfl (by omega)]
    | outputValue v =>
      cases hn
      rw [longData, htag, if_pos (by rfl), hread rfl (by omega)]
    | lockTime v =>
      cases hn
      have hv := v.toNat_lt
      rw [longData, htag, if_neg (by simp [Token.tag]), if_pos (by rfl), hread rfl (by omega)]
    | prevTxHash _ | txInScript _ | outputScript _ => cases hn
  · intro hash hh
    cases tok with
    | prevTxHash v =>
      obtain rfl : v = hash := Option.some.inj hh
      have hv := v.isLt
      have hsize : (Token.prevTxHash v).bytes.length = 32 := length_leBytes 32 _
      rw [uint256Data, if_pos (by omega), hread rfl (by omega), BitVec.ofNat_toNat,
        BitVec.setWidth_eq]
    | txVersion _ | prevTxIndex _ | txInScript _ | sequence _ | outputValue _ | outputScript _
      | lockTime _ => cases hh

/-- A field that is there is shown. -/
theorem advance_spec {t : TxTokenizer} (tok : Token) {s : ℕ} {rest : List UInt8}
    (hstart : t.currentTokenStart = s) (hend : t.currentTokenEnd = s)
    (h : t.data.bytes.drop s = tok.bytes ++ rest) (hrest : rest ≠ [] ∨ tok.bytes ≠ [])
    (htyped : tok.Typed) :
    ∃ u, t.advance tok.bytes.length tok.tag = .ok u ∧ u.Shows tok ∧
      u = { t with currentTokenEnd := (s + tok.bytes.length : ℕ), tag := some tok.tag } := by
  have hlen : s + tok.bytes.length ≤ t.data.bytes.length := by
    have hd := congrArg List.length h
    have hpos : 0 < tok.bytes.length + rest.length := by
      rcases hrest with hrest | hrest <;> have := List.length_pos_iff.mpr hrest <;> omega
    rw [List.length_drop, List.length_append] at hd
    omega
  have hnext : t.currentTokenEnd + tok.bytes.length = (s + tok.bytes.length : ℕ) := by
    rw [hend]
    push_cast
    rfl
  refine ⟨_, ?_, ?_, rfl⟩
  · rw [advance, hnext, checkSpaceForTag, if_neg]
    rintro ⟨-, hgt⟩
    have hgt' : ((s + tok.bytes.length : ℕ) : ℤ) > t.data.bytes.length := hgt
    omega
  · exact shows_of_drop rfl hstart rfl h htyped

/-- Between two calls, in the transaction that starts at offset `p` of `data`: the last
field was `tag` and ended at offset `q`. -/
def At (t : TxTokenizer) (data : ConstBuffer) (p q : ℕ) (tag : Tx.Component)
    (inputs outputs : ℤ) : Prop :=
  ∃ s, t = ⟨data, some p, s, q, inputs, outputs, some tag⟩

/-- Before a transaction at offset `p`: the iterator was just made for it, or the
transaction before is complete. -/
structure Ready (t : TxTokenizer) (data : ConstBuffer) (p : ℕ) : Prop where
  data : t.data = data
  currentTokenEnd : t.currentTokenEnd = p
  starts : t.txStart = some (p : ℤ) ∨ t.tag = some .finish

section Step

variable {t : TxTokenizer} {data : ConstBuffer} {p q : ℕ} {tag : Tx.Component}
  {inputs outputs : ℤ} {rest : List UInt8}

/-- The first field of a transaction. -/
theorem next_txVersion (v : Int32) (ht : t.Ready data p)
    (h : data.bytes.drop p = leBytes 4 v.toUInt32.toNat ++ rest) :
    ∃ u inputs outputs, t.next = .ok u ∧ u.Shows (.txVersion v) ∧
      u.At data p (p + 4) .txVersion inputs outputs := by
  have hlen : p + 4 ≤ data.bytes.length := by
    have hd := congrArg List.length h
    rw [List.length_drop, List.length_append, length_leBytes] at hd
    omega
  obtain ⟨hdata, hend, hstarts⟩ := ht
  subst hdata
  obtain ⟨u, hu, hshow, rfl⟩ := advance_spec
    (t := { t with currentTokenStart := t.currentTokenEnd, txStart := some t.currentTokenEnd })
    (.txVersion v) hend hend h (.inr (by simp [Token.bytes, leBytes])) trivial
  have hcond : t.txStart = some t.currentTokenEnd ∨ t.tag = some .finish := by rwa [hend]
  refine ⟨_, t.numInputsLeft, t.numOutputsLeft, ?_, hshow, t.currentTokenEnd, ?_⟩
  · rw [next, if_neg (by omega), if_pos hcond]
    exact hu
  · simp only [hend]
    rfl

/-- Inside a transaction. -/
theorem next_of_at (ht : t.At data p q tag inputs outputs) (hlen : q + 1 < data.bytes.length)
    (hq : p < q) (htag : tag ≠ .finish) :
    t.next = nextInside ⟨data, some p, q, q, inputs, outputs, some tag⟩ := by
  obtain ⟨s, rfl⟩ := ht
  rw [next, if_neg, if_neg]
  · rintro (hstart | hfinish)
    · have heq : (p : ℤ) = q := Option.some.inj hstart
      omega
    · exact htag (Option.some.inj hfinish)
  · show ¬ (q : ℤ) + 1 ≥ data.bytes.length
    omega

/-- Behind the first field there is no count of inputs. -/
theorem startInputs_of_lt (hq : p + 4 < q) :
    startInputs ⟨data, some p, q, q, inputs, outputs, some tag⟩
      = .ok (⟨data, some p, q, q, inputs, outputs, some tag⟩, false) := by
  rw [startInputs, if_neg]
  simp only [Option.some.injEq]
  omega

/-- Behind any field but the version and a sequence, the tag decides. -/
theorem nextInside_of_ne (hq : p + 4 < q) (hseq : tag ≠ .sequence) :
    nextInside ⟨data, some p, q, q, inputs, outputs, some tag⟩
      = nextField ⟨data, some p, q, q, inputs, outputs, some tag⟩ false false := by
  rw [nextInside, startInputs_of_lt hq]
  simp [afterSequence, hseq, bind, Except.bind]

/-- A field without a length in front of it. -/
theorem next_field (tok : Token) {n : ℤ} (ht : t.At data p q tag inputs outputs)
    (hq : p + 4 < q) (htag : tag ≠ .finish) (hseq : tag ≠ .sequence)
    (h : data.bytes.drop q = tok.bytes ++ rest) (hbytes : 2 ≤ tok.bytes.length)
    (htyped : tok.Typed)
    (hfield : nextField ⟨data, some p, q, q, inputs, outputs, some tag⟩ false false
      = advance ⟨data, some p, q, q, inputs, n, some tag⟩ tok.bytes.length tok.tag) :
    ∃ u, t.next = .ok u ∧ u.Shows tok ∧
      u.At data p (q + tok.bytes.length) tok.tag inputs n := by
  have hlen : q + 1 < data.bytes.length := by
    have hd := congrArg List.length h
    rw [List.length_drop, List.length_append] at hd
    omega
  rw [next_of_at ht hlen (by omega) htag, nextInside_of_ne hq hseq, hfield]
  obtain ⟨u, hu, hshow, rfl⟩ := advance_spec
    (t := ⟨data, some p, q, q, inputs, n, some tag⟩) tok rfl rfl h
    (.inr (by rw [← List.length_pos_iff]; omega)) htyped
  exact ⟨_, hu, hshow, q, rfl⟩

/-- A script, with its length in front of it. -/
theorem next_script (tok : Token) (ht : t.At data p q tag inputs outputs)
    (hq : p + 4 < q) (htag : tag ≠ .finish) (hseq : tag ≠ .sequence)
    (h : data.bytes.drop q = writeScript tok.bytes ++ rest) (hrest : rest ≠ [])
    (htyped : tok.Typed)
    (hfield : nextField ⟨data, some p, q, q, inputs, outputs, some tag⟩ false false
      = advanceScript ⟨data, some p, q, q, inputs, outputs, some tag⟩ tok.tag) :
    ∃ u, t.next = .ok u ∧ u.Shows tok ∧
      u.At data p (q + (writeScript tok.bytes).length) tok.tag inputs outputs := by
  have hsize := data.size_lt
  have hpos := length_writeCompactSize_pos tok.bytes.length
  have hlen := FastBlock.length_of_drop h hrest
  have hrestpos := List.length_pos_iff.mpr hrest
  rw [writeScript, List.length_append] at hlen
  rw [writeScript, List.append_assoc] at h
  rw [next_of_at ht (by omega) (by omega) htag, nextInside_of_ne hq hseq, hfield]
  have hread := readCompactSize_spec (by omega) h
  obtain ⟨u, hu, hshow, rfl⟩ := advance_spec
    (t := ⟨data, some p, (q + (writeCompactSize tok.bytes.length).length : ℕ),
      (q + (writeCompactSize tok.bytes.length).length : ℕ), inputs, outputs, some tag⟩)
    tok rfl rfl (FastBlock.drop_of_drop h) (.inl hrest) htyped
  refine ⟨_, ?_, hshow, (q + (writeCompactSize tok.bytes.length).length : ℕ), ?_⟩
  · simp only [advanceScript, hread, bind, Except.bind]
    rw [toInt32_of_lt (by omega) (by omega)]
    exact hu
  · rw [writeScript, List.length_append, Nat.add_assoc]

/-- Behind an output that is not the last comes the next one. -/
theorem nextField_outputScript {left : ℤ} (h : 0 < left) :
    nextField ⟨data, some p, q, q, inputs, left + 1, some .outputScript⟩ false false
      = advance ⟨data, some p, q, q, inputs, left, some .outputScript⟩ 8 .outputValue := by
  simp [nextField, h]

/-- The first field of the first input, behind the number of inputs. -/
theorem next_firstInput (hash : Uint256) {n : ℕ}
    (ht : t.At data p (p + 4) .txVersion inputs outputs) (hn : n < 2 ^ 31)
    (h : data.bytes.drop (p + 4) = writeCompactSize n ++ (leBytes 32 hash.toNat ++ rest)) :
    ∃ u, t.next = .ok u ∧ u.Shows (.prevTxHash hash) ∧
      u.At data p (p + 4 + (writeCompactSize n).length + 32) .prevTxHash n outputs := by
  have hlen := FastBlock.length_of_drop h (by simp [leBytes])
  rw [List.length_append, length_leBytes] at hlen
  rw [next_of_at ht (by omega) (by omega) (by simp)]
  have hread := readCompactSize_spec (by omega) h
  obtain ⟨u, hu, hshow, rfl⟩ := advance_spec
    (t := ⟨data, some p, (p + 4 + (writeCompactSize n).length : ℕ),
      (p + 4 + (writeCompactSize n).length : ℕ), n, outputs, some .txVersion⟩)
    (.prevTxHash hash) rfl rfl (FastBlock.drop_of_drop h)
    (.inr (by simp [Token.bytes, leBytes])) trivial
  rw [show (Token.prevTxHash hash).bytes.length = 32 from length_leBytes 32 _] at hu hshow
  refine ⟨_, ?_, hshow, (p + 4 + (writeCompactSize n).length : ℕ), rfl⟩
  -- the pointer is right behind the version, so the count is read first
  have hcount : startInputs ⟨data, some p, (p + 4 : ℕ), (p + 4 : ℕ), inputs, outputs,
        some .txVersion⟩
      = .ok (⟨data, some p, (p + 4 + (writeCompactSize n).length : ℕ),
        (p + 4 + (writeCompactSize n).length : ℕ), n, outputs, some .txVersion⟩, true) := by
    rw [startInputs, if_pos (by simp), hread]
    simp only [bind, Except.bind]
    rw [toInt32_of_lt (by omega) (by omega)]
  rw [nextInside, hcount]
  simp only [bind, Except.bind, afterSequence]
  exact hu

/-- Behind an input that is not the last comes the next one. -/
theorem next_nextInput (hash : Uint256) (ht : t.At data p q .sequence (inputs + 1) outputs)
    (hq : p + 4 < q) (hinputs : 0 < inputs)
    (h : data.bytes.drop q = leBytes 32 hash.toNat ++ rest) :
    ∃ u, t.next = .ok u ∧ u.Shows (.prevTxHash hash) ∧
      u.At data p (q + 32) .prevTxHash inputs outputs := by
  have hlen : q + 32 ≤ data.bytes.length := by
    have hd := congrArg List.length h
    rw [List.length_drop, List.length_append, length_leBytes] at hd
    omega
  rw [next_of_at ht (by omega) (by omega) (by simp), nextInside, startInputs_of_lt hq]
  obtain ⟨u, hu, hshow, rfl⟩ := advance_spec
    (t := ⟨data, some p, q, q, inputs, outputs, some .sequence⟩)
    (.prevTxHash hash) rfl rfl h (.inr (by simp [Token.bytes, leBytes])) trivial
  rw [show (Token.prevTxHash hash).bytes.length = 32 from length_leBytes 32 _] at hu hshow
  refine ⟨_, ?_, hshow, q, rfl⟩
  simp only [bind, Except.bind, afterSequence, if_true, add_sub_cancel_right]
  rw [if_pos hinputs]
  exact hu

/-- Behind the last input comes the number of outputs, and the value of the first one. -/
theorem next_firstOutput (v : ℤ) {n : ℕ} (ht : t.At data p q .sequence 1 outputs)
    (hq : p + 4 < q) (hn : n < 2 ^ 31)
    (h : data.bytes.drop q = writeCompactSize n ++ (leBytes 8 (v % 2 ^ 64).toNat ++ rest)) :
    ∃ u, t.next = .ok u ∧ u.Shows (.outputValue v) ∧
      u.At data p (q + (writeCompactSize n).length + 8) .outputValue 0 n := by
  have hlen := FastBlock.length_of_drop h (by simp [leBytes])
  rw [List.length_append, length_leBytes] at hlen
  rw [next_of_at ht (by omega) (by omega) (by simp), nextInside, startInputs_of_lt hq]
  have hread := readCompactSize_spec (by omega) h
  obtain ⟨u, hu, hshow, rfl⟩ := advance_spec
    (t := ⟨data, some p, (q + (writeCompactSize n).length : ℕ),
      (q + (writeCompactSize n).length : ℕ), 0, n, some .sequence⟩)
    (.outputValue v) rfl rfl (FastBlock.drop_of_drop h)
    (.inr (by simp [Token.bytes, leBytes])) trivial
  rw [show (Token.outputValue v).bytes.length = 8 from length_leBytes 8 _] at hu hshow
  refine ⟨_, ?_, hshow, (q + (writeCompactSize n).length : ℕ), rfl⟩
  have hafter : afterSequence ⟨data, some p, q, q, 1, outputs, some .sequence⟩ false
      = .ok (⟨data, some p, (q + (writeCompactSize n).length : ℕ),
        (q + (writeCompactSize n).length : ℕ), 0, n, some .sequence⟩, false, true) := by
    rw [afterSequence, if_pos rfl, hread]
    simp only [bind, Except.bind]
    rw [toInt32_of_lt (by omega) (by omega)]
    rfl
  simp only [bind, Except.bind, hafter, nextField]
  exact hu

/-! ## One transaction -/

/-- The rest of an input. -/
theorem yields_input (i : CTxIn) (ht : t.At data p q .prevTxHash inputs outputs)
    (hq : p + 4 < q) (hn : i.prevout.n < 2 ^ 32)
    (h : data.bytes.drop q = leBytes 4 i.prevout.n ++ (writeScript i.scriptSig
      ++ (leBytes 4 i.nSequence.toNat ++ rest))) :
    ∃ u q', t.Yields [.prevTxIndex i.prevout.n, .txInScript i.scriptSig, .sequence i.nSequence] u ∧
      u.At data p q' .sequence inputs outputs ∧ p + 4 < q' ∧ data.bytes.drop q' = rest := by
  obtain ⟨u₁, hu₁, hs₁, ht₁⟩ := next_field (.prevTxIndex i.prevout.n) ht hq (by simp) (by simp)
    h (by simp [Token.bytes]) hn rfl
  have h₁ := FastBlock.drop_of_drop h
  obtain ⟨u₂, hu₂, hs₂, ht₂⟩ := next_script (.txInScript i.scriptSig) ht₁ (by omega)
    (by simp [Token.tag]) (by simp [Token.tag]) h₁ (by simp [leBytes]) trivial rfl
  have h₂ := FastBlock.drop_of_drop h₁
  obtain ⟨u₃, hu₃, hs₃, ht₃⟩ := next_field (.sequence i.nSequence) ht₂ (by omega)
    (by simp [Token.tag]) (by simp [Token.tag]) h₂ (by simp [Token.bytes]) trivial rfl
  exact ⟨u₃, _, ⟨u₁, hu₁, hs₁, u₂, hu₂, hs₂, u₃, hu₃, hs₃, rfl⟩, ht₃, by omega,
    FastBlock.drop_of_drop h₂⟩

/-- The rest of an input, and the inputs behind it. -/
theorem yields_inputs (vin : List CTxIn) : ∀ {t : TxTokenizer} {q : ℕ} (i : CTxIn),
    t.At data p q .prevTxHash (vin.length + 1) outputs → p + 4 < q → i.prevout.n < 2 ^ 32 →
    (∀ j ∈ vin, j.prevout.n < 2 ^ 32) →
    data.bytes.drop q = leBytes 4 i.prevout.n ++ (writeScript i.scriptSig
      ++ (leBytes 4 i.nSequence.toNat ++ (vin.flatMap CTxIn.serialize ++ rest))) →
    ∃ u q', t.Yields ([.prevTxIndex i.prevout.n, .txInScript i.scriptSig, .sequence i.nSequence]
        ++ vin.flatMap inputTokens) u ∧
      u.At data p q' .sequence 1 outputs ∧ p + 4 < q' ∧ data.bytes.drop q' = rest := by
  induction vin with
  | nil =>
    intro t q i ht hq hn _ h
    obtain ⟨u, q', hyields, hu, hq', hdrop⟩ := yields_input i ht hq hn h
    exact ⟨u, q', by simpa using hyields, by simpa using hu, hq', by simpa using hdrop⟩
  | cons j vin ih =>
    intro t q i ht hq hn hvin h
    obtain ⟨u₁, q₁, hy₁, ht₁, hq₁, h₁⟩ := yields_input i ht hq hn h
    -- the hash of the next input, and from there on the induction hypothesis
    simp only [List.flatMap_cons, CTxIn.serialize, COutPoint.serialize, List.append_assoc] at h₁
    rw [List.length_cons] at ht₁
    obtain ⟨u₂, hu₂, hs₂, ht₂⟩ := next_nextInput j.prevout.hash ht₁ hq₁ (by omega) h₁
    have h₂ := FastBlock.drop_of_drop h₁
    rw [length_leBytes] at h₂
    obtain ⟨u, q', hyields, hu, hq', hdrop⟩ := ih j (by exact_mod_cast ht₂) (by omega)
      (hvin j List.mem_cons_self) (fun k hk => hvin k (List.mem_cons_of_mem _ hk)) h₂
    exact ⟨u, q', hy₁.append ⟨u₂, hu₂, hs₂, hyields⟩, hu, hq', hdrop⟩

/-- The script of an output, and the outputs behind it. -/
theorem yields_outputs (vout : List CTxOut) : ∀ {t : TxTokenizer} {q : ℕ} (o : CTxOut),
    t.At data p q .outputValue inputs (vout.length + 1) → p + 4 < q → rest ≠ [] →
    data.bytes.drop q = writeScript o.scriptPubKey ++ (vout.flatMap CTxOut.serialize ++ rest) →
    ∃ u q', t.Yields (.outputScript o.scriptPubKey :: vout.flatMap outputTokens) u ∧
      u.At data p q' .outputScript inputs 1 ∧ p + 4 < q' ∧ data.bytes.drop q' = rest := by
  induction vout with
  | nil =>
    intro t q o ht hq hrest h
    obtain ⟨u, hu, hs, ht⟩ := next_script (.outputScript o.scriptPubKey) ht hq (by simp)
      (by simp) h (by simpa using hrest) trivial rfl
    exact ⟨u, _, ⟨u, hu, hs, rfl⟩, ht, by omega, FastBlock.drop_of_drop h⟩
  | cons o' vout ih =>
    intro t q o ht hq hrest h
    simp only [List.flatMap_cons, CTxOut.serialize, List.append_assoc] at h
    obtain ⟨u₁, hu₁, hs₁, ht₁⟩ := next_script (.outputScript o.scriptPubKey) ht hq (by simp)
      (by simp) h (by simp [leBytes]) trivial rfl
    have h₁ := FastBlock.drop_of_drop h
    have hleft : ((vout.length + 1 : ℕ) : ℤ) + 1 = (vout.length + 1 : ℤ) + 1 := by omega
    rw [List.length_cons, hleft] at ht₁
    obtain ⟨u₂, hu₂, hs₂, ht₂⟩ := next_field (.outputValue o'.nValue)
      ht₁ (by omega) (by simp [Token.tag]) (by simp [Token.tag]) h₁ (by simp [Token.bytes]) trivial
      (nextField_outputScript (by omega))
    obtain ⟨u, q', hyields, hu, hq', hdrop⟩ := ih o' ht₂ (by omega) hrest
      (FastBlock.drop_of_drop h₁)
    exact ⟨u, q', ⟨u₁, hu₁, hs₁, u₂, hu₂, hs₂, hyields⟩, hu, hq', hdrop⟩

/-- The first output, and the outputs behind it. -/
theorem yields_vout {vout : List CTxOut} (hvout : vout ≠ []) (ht : t.At data p q .sequence 1 outputs)
    (hq : p + 4 < q) (hrest : rest ≠ [])
    (h : data.bytes.drop q = writeVector CTxOut.serialize vout ++ rest) :
    ∃ u q', t.Yields (vout.flatMap outputTokens) u ∧
      u.At data p q' .outputScript 0 1 ∧ p + 4 < q' ∧ data.bytes.drop q' = rest := by
  obtain ⟨o, vout, rfl⟩ := List.exists_cons_of_ne_nil hvout
  have hn : (o :: vout).length < 2 ^ 31 := by
    have hle : (o :: vout).length ≤ (writeVector CTxOut.serialize (o :: vout)).length :=
      length_le_writeVector (by simp [CTxOut.serialize])
    have hlen := FastBlock.length_of_drop h hrest
    have hsize := data.size_lt
    omega
  simp only [writeVector, List.flatMap_cons, CTxOut.serialize, List.append_assoc] at h
  obtain ⟨u₁, hu₁, hs₁, ht₁⟩ := next_firstOutput o.nValue ht hq hn h
  have h₁ := FastBlock.drop_of_drop (FastBlock.drop_of_drop h)
  rw [length_leBytes] at h₁
  obtain ⟨u, q', hyields, hu, hq', hdrop⟩ := yields_outputs vout o (by exact_mod_cast ht₁)
    (by omega) hrest h₁
  exact ⟨u, q', ⟨u₁, hu₁, hs₁, hyields⟩, hu, hq', hdrop⟩

/-- The first input, and the inputs behind it. -/
theorem yields_vin {vin : List CTxIn} (hvin : vin ≠ []) (htyped : ∀ i ∈ vin, i.prevout.n < 2 ^ 32)
    (ht : t.At data p (p + 4) .txVersion inputs outputs) (hrest : rest ≠ [])
    (h : data.bytes.drop (p + 4) = writeVector CTxIn.serialize vin ++ rest) :
    ∃ u q', t.Yields (vin.flatMap inputTokens) u ∧
      u.At data p q' .sequence 1 outputs ∧ p + 4 < q' ∧ data.bytes.drop q' = rest := by
  obtain ⟨i, vin, rfl⟩ := List.exists_cons_of_ne_nil hvin
  have hn : (i :: vin).length < 2 ^ 31 := by
    have hle : (i :: vin).length ≤ (writeVector CTxIn.serialize (i :: vin)).length :=
      length_le_writeVector (by simp [CTxIn.serialize, COutPoint.serialize])
    have hlen := FastBlock.length_of_drop h hrest
    have hsize := data.size_lt
    omega
  simp only [writeVector, List.flatMap_cons, CTxIn.serialize, COutPoint.serialize,
    List.append_assoc] at h
  obtain ⟨u₁, hu₁, hs₁, ht₁⟩ := next_firstInput i.prevout.hash ht hn h
  have h₁ := FastBlock.drop_of_drop (FastBlock.drop_of_drop h)
  rw [length_leBytes] at h₁
  obtain ⟨u, q', hyields, hu, hq', hdrop⟩ := yields_inputs vin i (by exact_mod_cast ht₁)
    (by omega) (htyped i List.mem_cons_self) (fun j hj => htyped j (List.mem_cons_of_mem _ hj)) h₁
  exact ⟨u, q', ⟨u₁, hu₁, hs₁, hyields⟩, hu, hq', hdrop⟩

/-- **The fields of one transaction**, wherever it is in the buffer. -/
theorem yields_tokens {tx : CTransaction} (htyped : tx.Typed) (hvin : tx.vin ≠ [])
    (hvout : tx.vout ≠ []) (ht : t.Ready data p)
    (h : data.bytes.drop p = tx.serialize ++ rest) :
    ∃ u inputs outputs, t.Yields (tokens tx) u ∧
      u.At data p (p + tx.serialize.length) .lockTime inputs outputs := by
  have hlen : p + tx.serialize.length + rest.length = data.bytes.length := by
    have hd := congrArg List.length h
    have hpos := tx.length_serialize_pos
    rw [List.length_drop, List.length_append] at hd
    omega
  simp only [CTransaction.serialize, List.append_assoc] at h
  obtain ⟨u₀, i, o, hu₀, hs₀, ht₀⟩ := next_txVersion tx.nVersion ht h
  have h₀ := FastBlock.drop_of_drop h
  rw [length_leBytes] at h₀
  obtain ⟨u₁, q₁, hy₁, ht₁, hq₁, h₁⟩ := yields_vin hvin htyped.1 ht₀ (by simp [leBytes]) h₀
  obtain ⟨u₂, q₂, hy₂, ht₂, hq₂, h₂⟩ := yields_vout hvout ht₁ hq₁ (by simp [leBytes]) h₁
  obtain ⟨u, hu, hs, ht⟩ := next_field (.lockTime tx.nLockTime) (n := 0) ht₂ hq₂ (by simp)
    (by simp) h₂ (by simp [Token.bytes]) trivial rfl
  -- what is left behind the outputs tells where they end
  have hq : q₂ + (Token.lockTime tx.nLockTime).bytes.length = p + tx.serialize.length := by
    have hd := congrArg List.length h₂
    have hfour : (Token.lockTime tx.nLockTime).bytes.length = 4 := length_leBytes 4 _
    rw [List.length_drop, List.length_append, length_leBytes] at hd
    omega
  rw [hq] at ht
  refine ⟨u, 0, 0, ⟨u₀, hu₀, hs₀, ?_⟩, ht⟩
  exact hy₁.append (hy₂.append ⟨u, hu, hs, rfl⟩)

/-- Behind the last field is the end of the transaction. -/
theorem next_lockTime (ht : t.At data p q .lockTime inputs outputs) (hq : p + 4 < q) :
    ∃ u, t.next = .ok u ∧ u.tag = some .finish ∧ u.data = data ∧ u.txStart = some (p : ℤ) ∧
      u.currentTokenEnd = q := by
  by_cases hlen : q + 1 < data.bytes.length
  · rw [next_of_at ht hlen (by omega) (by simp), nextInside_of_ne hq (by simp)]
    exact ⟨⟨data, some p, q, q, inputs, outputs, some .finish⟩, rfl, rfl, rfl, rfl, rfl⟩
  · obtain ⟨s, rfl⟩ := ht
    refine ⟨⟨data, some p, s, q, inputs, outputs, some .finish⟩, ?_, rfl, rfl, rfl, rfl⟩
    rw [next, if_pos]
    show (q : ℤ) + 1 ≥ data.bytes.length
    omega

/-! ## Transactions and blocks -/

/-- Transactions one after the other, up to the end of the buffer. -/
theorem yieldsAll_of_ready (vtx : List CTransaction) : ∀ {t : TxTokenizer} {p : ℕ},
    (∀ tx ∈ vtx, tx.Typed ∧ tx.vin ≠ [] ∧ tx.vout ≠ []) → t.Ready data p →
    (vtx = [] → t.tag = some .finish) → p ≤ data.bytes.length →
    data.bytes.drop p = vtx.flatMap CTransaction.serialize →
    ∃ u, t.YieldsAll vtx u ∧ u.Ended := by
  induction vtx with
  | nil =>
    intro t p _ ht htag hp h
    have hlen : data.bytes.length = p := by
      have hd := congrArg List.length h
      rw [List.length_drop, List.flatMap_nil, List.length_nil] at hd
      omega
    refine ⟨t, rfl, htag rfl, ?_⟩
    obtain ⟨rfl, hend, -⟩ := ht
    rw [next, if_pos (by omega), ← htag rfl]
  | cons tx vtx ih =>
    intro t p hvtx ht _ _ h
    obtain ⟨htyped, hvin, hvout⟩ := hvtx tx List.mem_cons_self
    rw [List.flatMap_cons] at h
    obtain ⟨u, i, o, hyields, hu⟩ := yields_tokens htyped hvin hvout ht h
    have hfour : 4 < tx.serialize.length := by
      simp only [CTransaction.serialize, writeVector, List.length_append, length_leBytes]
      omega
    obtain ⟨v, hv, htag, hdata, hstart, hend⟩ := next_lockTime hu (by omega)
    have hlen : p + tx.serialize.length ≤ data.bytes.length := by
      have hd := congrArg List.length h
      rw [List.length_drop, List.length_append] at hd
      omega
    have hprev : v.prevTx = some tx.serialize := by
      rw [prevTx, hstart, Option.map_some, bytesBetween, hend, hdata, Int.toNat_natCast,
        Int.toNat_natCast, slice, List.drop_take, Nat.add_sub_cancel_left, h, List.take_left]
    obtain ⟨w, hall, hended⟩ := ih (fun tx' htx' => hvtx tx' (List.mem_cons_of_mem _ htx'))
      ⟨hdata, hend, .inr htag⟩ (fun _ => htag) hlen (FastBlock.drop_of_drop h)
    exact ⟨w, ⟨u, v, hyields, hv, htag, hprev, hall⟩, hended⟩

end Step

/-- The first byte of a compact size tells how long it is. -/
theorem readCompactSizeSize_spec {n : ℕ} {b : UInt8} {bytes : List UInt8}
    (h : writeCompactSize n = b :: bytes) : readCompactSizeSize b = (writeCompactSize n).length := by
  unfold writeCompactSize at h ⊢
  split_ifs at h ⊢ with h₁ h₂ h₃
  · obtain ⟨rfl, -⟩ := List.cons.inj h
    have hlt : UInt8.ofNat n < 253 := by
      rw [UInt8.lt_iff_toNat_lt, UInt8.toNat_ofNat']
      show n % 256 < 253
      omega
    simp [readCompactSizeSize, hlt]
  all_goals
    obtain ⟨rfl, -⟩ := List.cons.inj h
    rfl

/-- The iterator on a block stands before its first transaction. -/
theorem ofBlock_spec {b : CBlock} {block : FastBlock} (h : block.data.bytes = b.serialize) :
    ∃ t, ofBlock block = .ok t ∧ t.tag = some .finish ∧
      t.Ready block.data (80 + (writeCompactSize b.vtx.length).length) := by
  rw [← List.append_nil b.serialize] at h
  have hdrop := FastBlock.drop_header h
  have hpos := length_writeCompactSize_pos b.vtx.length
  obtain ⟨c, bytes, hc⟩ := List.exists_cons_of_length_pos hpos
  have hfirst : block.data.bytes[80]? = some c := by
    rw [← List.head?_drop, hdrop, hc]
    rfl
  refine ⟨_, by rw [ofBlock, hfirst], rfl, rfl, ?_, .inr rfl⟩
  rw [readCompactSizeSize_spec hc]
  push_cast
  rfl

/-- **The tokenizer is exact.**  An iterator over a transaction with inputs and outputs goes
through its fields and is then at the end for ever; an iterator over a block of such
transactions goes through the fields of one after the other, with the transaction itself at
each end, and is then at the end for ever. -/
theorem iterator_exact :
    (∀ (tx : CTransaction) (data : ConstBuffer), tx.Typed → tx.vin ≠ [] → tx.vout ≠ [] →
      data.bytes = tx.serialize → ∃ t, (ofTx data).YieldsAll [tx] t ∧ t.Ended) ∧
    ∀ (b : CBlock) (block : FastBlock), b.Typed → (∀ tx ∈ b.vtx, tx.vin ≠ [] ∧ tx.vout ≠ []) →
      block.data.bytes = b.serialize →
      ∃ t t', ofBlock block = .ok t ∧ t.YieldsAll b.vtx t' ∧ t'.Ended := by
  constructor
  · intro tx data htyped hvin hvout hdata
    have hready : (ofTx data).Ready data 0 := ⟨rfl, rfl, .inl rfl⟩
    refine yieldsAll_of_ready [tx] ?_ hready ?_ ?_ ?_
    · simpa using ⟨htyped, hvin, hvout⟩
    · simp
    · simp
    · simpa using hdata
  · intro b block htyped hne hdata
    obtain ⟨t, hof, htag, hready⟩ := ofBlock_spec hdata
    rw [← List.append_nil b.serialize] at hdata
    have hdrop := FastBlock.drop_header hdata
    rw [List.append_nil] at hdrop
    obtain ⟨t', hyields, hended⟩ := yieldsAll_of_ready b.vtx
      (fun tx htx => ⟨htyped tx htx, hne tx htx⟩) hready (fun _ => htag) (by
        have hd := congrArg List.length hdrop
        have hpos := length_writeCompactSize_pos b.vtx.length
        rw [List.length_drop, List.length_append] at hd
        omega) (FastBlock.drop_of_drop hdrop)
    exact ⟨t, t', hof, hyields, hended⟩

theorem iterator_exact_threeTransactions :
    ∃ block t t', FastBlock.fromOldBlock FastBlock.threeTransactions
        FastBlock.length_threeTransactions = .ok block ∧
      ofBlock block = .ok t ∧ t.YieldsAll FastBlock.threeTransactions.vtx t' ∧ t'.Ended := by
  obtain ⟨block, hblock, hdata, -⟩ := FastBlock.fromOldBlock_spec FastBlock.threeTransactions
    FastBlock.length_threeTransactions
  obtain ⟨t, t', h⟩ := iterator_exact.2 FastBlock.threeTransactions block
    FastBlock.typed_threeTransactions (by simp [FastBlock.threeTransactions]) hdata
  exact ⟨block, t, t', hblock, h⟩

end TxTokenizer
