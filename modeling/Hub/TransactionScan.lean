/-
# The scan over the bytes of a block

`FastBlock::findTransactions` is the first code to look at the transactions of a block, on
whatever bytes came from a file or from the network.  The numbers of inputs and outputs and
the lengths of scripts are of 64 bits and are added to a position of type `size_t`; only a
position that is too large is refused.

`scan` has the values that `positionInStream` takes, one list for each transaction that is
looked at.

* `isChain_positions_iff` : the position does not move backwards exactly when no length takes
  it beyond `2 ^ 64`;
* `robust_iff_blockFits` : the scan is robust exactly when this holds for all transactions,
  and the number of transactions is not negative as an `int`.
-/
import Hub.FastBlock
import Mathlib.Data.List.Chain

open ByteCodec Serialization Streaming

namespace FastBlock

/-! ## The positions of a scan -/

/-- The values of `positionInStream` in the loops of `transactionSize`; `next` has those
behind the loop. -/
def scriptPositions (buf : List UInt8) (pos before after : ℕ) (next : ℕ → List ℕ) :
    ℕ → ℕ → List ℕ
  | 0, positionInStream => next positionInStream
  | count + 1, positionInStream =>
      let script := (positionInStream + before) % 2 ^ 64
      script :: match readCompactSize buf script with
        | .error _ => []
        | .ok (scriptLength, body) =>
            let positionInStream := (body + (scriptLength + after)) % 2 ^ 64
            body :: positionInStream ::
              if positionInStream > buf.length + pos then []
              else scriptPositions buf pos before after next count positionInStream

/-- The values in `transactionSize`. -/
def positions (buf : List UInt8) (pos : ℕ) : List ℕ :=
  (pos + 4) :: match readCompactSize buf (pos + 4) with
    | .error _ => []
    | .ok (inCount, inputs) =>
        inputs :: scriptPositions buf pos (32 + 4) 4 (fun positionInStream =>
          match readCompactSize buf positionInStream with
          | .error _ => []
          | .ok (outCount, outputs) =>
              outputs :: scriptPositions buf pos 8 0
                (fun positionInStream => [(positionInStream + 4) % 2 ^ 64]) outCount outputs)
          inCount inputs

/-- The values in the loop of `findTransactions`, for each transaction behind its start. -/
def scanLoop (data : ConstBuffer) : ℕ → ℕ → List (List ℕ)
  | 0, _ => []
  | count + 1, pos =>
      (pos :: positions data.bytes pos) ::
        match transactionSize data.bytes pos with
        | .error _ => []
        | .ok txSize =>
            if (txSize + pos) % 2 ^ 64 > data.bytes.length then []
            else
              match mid data pos txSize with
              | .error _ => []
              | .ok _ => scanLoop data count ((pos + txSize) % 2 ^ 64).toNat

/-- The values in `findTransactions`. -/
def scan (data : ConstBuffer) : List (List ℕ) :=
  match readCompactSize data.bytes 80 with
  | .error _ => []
  | .ok (n, pos) => scanLoop data (toInt32 n).toNat pos

/-- The slices are parts of the buffer, not empty, one behind the other, behind the header. -/
def Slices (data : ConstBuffer) (txs : List Tx) : Prop :=
  ∃ start stop, 80 < start ∧ stop ≤ data.bytes.length ∧ Contiguous start txs stop ∧
    ∀ tx ∈ txs, 0 < tx.data.bytes.length ∧
      tx.start + tx.data.bytes.length ≤ data.bytes.length ∧
      tx.data.bytes = slice data.bytes tx.start (tx.start + tx.data.bytes.length)

/-- How `findTransactions` may end: with `std::runtime_error`, or with slices. -/
def Sound (data : ConstBuffer) : Except Fault FastBlock → Prop
  | .error fault => ∃ what, fault = .runtimeError what
  | .ok found => found.data = data ∧ Slices data found.transactions

/-- What is asked of a scan: `std::runtime_error` or slices, positions that never move
backwards, and at most one step for each byte. -/
structure Robust (block : FastBlock) : Prop where
  outcome : Sound block.data block.findTransactions
  forward : ∀ l ∈ scan block.data, l.IsChain (· ≤ ·)
  steps : ((scan block.data).map List.length).sum ≤ block.data.bytes.length

/-! ## The layout of the bytes -/

/-- The bytes that a script and what is behind it take, as a number of 64 bits. -/
def scriptSize (scriptLength after : ℕ) : ℕ := (scriptLength + after) % 2 ^ 64

/-- No script of `count` inputs or outputs, laid out from `p` on, ends beyond `2 ^ 64`. -/
def ScriptsFit (buf : List UInt8) (before after : ℕ) : ℕ → ℕ → Prop
  | 0, _ => True
  | count + 1, p => ∀ scriptLength body,
      readCompactSize buf (p + before) = .ok (scriptLength, body) →
        body + scriptSize scriptLength after < 2 ^ 64 ∧
          ScriptsFit buf before after count (body + scriptSize scriptLength after)

/-- Where they end. -/
def scriptsEnd (buf : List UInt8) (before after : ℕ) : ℕ → ℕ → Option ℕ
  | 0, p => some p
  | count + 1, p =>
      match readCompactSize buf (p + before) with
      | .error _ => none
      | .ok (scriptLength, body) =>
          scriptsEnd buf before after count (body + scriptSize scriptLength after)

/-- Where the inputs of a transaction at `pos` end. -/
def inputsEnd (buf : List UInt8) (pos : ℕ) : Option ℕ :=
  match readCompactSize buf (pos + 4) with
  | .error _ => none
  | .ok (inCount, inputs) => scriptsEnd buf (32 + 4) 4 inCount inputs

/-- Where a transaction at `pos` ends. -/
def txEnd (buf : List UInt8) (pos : ℕ) : Option ℕ := do
  let p ← inputsEnd buf pos
  match readCompactSize buf p with
  | .error _ => none
  | .ok (outCount, outputs) => (scriptsEnd buf 8 0 outCount outputs).map (· + 4)

/-- No script of a transaction at `pos` ends beyond `2 ^ 64`. -/
def TxFits (buf : List UInt8) (pos : ℕ) : Prop :=
  (∀ inCount inputs, readCompactSize buf (pos + 4) = .ok (inCount, inputs) →
    ScriptsFit buf (32 + 4) 4 inCount inputs) ∧
  ∀ p, inputsEnd buf pos = some p →
    ∀ outCount outputs, readCompactSize buf p = .ok (outCount, outputs) →
      ScriptsFit buf 8 0 outCount outputs

/-- The same for `count` transactions, laid out from `pos` on. -/
def TxsFit (buf : List UInt8) : ℕ → ℕ → Prop
  | 0, _ => True
  | count + 1, pos => TxFits buf pos ∧ ∀ p, txEnd buf pos = some p → TxsFit buf count p

/-- The number of transactions is not negative as an `int`, and no script of them ends beyond
`2 ^ 64`. -/
def BlockFits (buf : List UInt8) : Prop :=
  ∀ n pos, readCompactSize buf 80 = .ok (n, pos) →
    0 ≤ toInt32 n ∧ TxsFit buf (toInt32 n).toNat pos

/-! The condition can be evaluated. -/

instance decidableRead {buf : List UInt8} {pos : ℕ} {P : ℕ → ℕ → Prop}
    [∀ n p, Decidable (P n p)] :
    Decidable (∀ n p, readCompactSize buf pos = .ok (n, p) → P n p) :=
  match readCompactSize buf pos with
  | .error _ => .isTrue fun _ _ hok => (by cases hok)
  | .ok (n, p) => decidable_of_iff (P n p) (by simp)

instance decidableScriptsFit (buf : List UInt8) (before after : ℕ) :
    ∀ count p, Decidable (ScriptsFit buf before after count p)
  | 0, _ => .isTrue trivial
  | count + 1, p =>
      haveI := decidableScriptsFit buf before after count
      inferInstanceAs (Decidable (∀ scriptLength body,
        readCompactSize buf (p + before) = .ok (scriptLength, body) →
          body + scriptSize scriptLength after < 2 ^ 64 ∧
            ScriptsFit buf before after count (body + scriptSize scriptLength after)))

instance decidableEnd {o : Option ℕ} {P : ℕ → Prop} [DecidablePred P] :
    Decidable (∀ p, o = some p → P p) :=
  inferInstanceAs (Decidable (∀ p ∈ o, P p))

instance decidableTxFits (buf : List UInt8) (pos : ℕ) : Decidable (TxFits buf pos) :=
  instDecidableAnd

instance decidableTxsFit (buf : List UInt8) : ∀ count pos, Decidable (TxsFit buf count pos)
  | 0, _ => .isTrue trivial
  | count + 1, pos =>
      haveI := decidableTxsFit buf count
      inferInstanceAs (Decidable
        (TxFits buf pos ∧ ∀ p, txEnd buf pos = some p → TxsFit buf count p))

instance decidableBlockFits (buf : List UInt8) : Decidable (BlockFits buf) :=
  decidableRead

/-! ## One loop -/

theorem readLong_bounds {buf : List UInt8} {pos k n p : ℕ} (h : readLong buf pos k = .ok (n, p)) :
    pos < p ∧ p < buf.length ∧ n < 256 ^ k := by
  rw [readLong] at h
  split at h
  next => cases h
  next hlen =>
    rw [Except.ok.injEq, Prod.mk.injEq] at h
    obtain ⟨rfl, rfl⟩ := h
    exact ⟨by omega, by omega, readAt_lt _ _ _⟩

/-- A number that is read is inside the buffer. -/
theorem readCompactSize_bounds {buf : List UInt8} {pos n p : ℕ}
    (h : readCompactSize buf pos = .ok (n, p)) : pos < p ∧ p ≤ buf.length ∧ n < 2 ^ 64 := by
  rw [readCompactSize] at h
  split at h
  next => cases h
  next b hb =>
    have hlt := (List.getElem?_eq_some_iff.mp hb).1
    split_ifs at h
    · rw [Except.ok.injEq, Prod.mk.injEq] at h
      obtain ⟨rfl, rfl⟩ := h
      have := b.toNat_lt
      omega
    · have := readLong_bounds h
      omega
    · have := readLong_bounds h
      omega
    · have := readLong_bounds h
      omega

/-- The reader throws `std::runtime_error`. -/
theorem readCompactSize_error {buf : List UInt8} {pos : ℕ} {fault : Fault}
    (h : readCompactSize buf pos = .error fault) : ∃ what, fault = .runtimeError what := by
  have hlong : ∀ {k}, readLong buf pos k = .error fault → ∃ what, fault = .runtimeError what := by
    intro k hk
    rw [readLong] at hk
    split at hk
    · exact ⟨_, (Except.error.inj hk).symm⟩
    · cases hk
  rw [readCompactSize] at h
  split at h
  next => exact ⟨_, (Except.error.inj h).symm⟩
  next =>
    split_ifs at h
    · exact hlong h
    · exact hlong h
    · exact hlong h

/-- Nothing is read behind the end. -/
theorem readCompactSize_ne_ok {buf : List UInt8} {pos : ℕ} (hpos : buf.length ≤ pos) {n p : ℕ} :
    readCompactSize buf pos ≠ .ok (n, p) := by
  intro h
  have := readCompactSize_bounds h
  omega

theorem scriptsFit_of_le {buf : List UInt8} (before after : ℕ) {p : ℕ} (h : buf.length ≤ p) :
    ∀ count, ScriptsFit buf before after count p
  | 0 => trivial
  | _ + 1 => fun _ _ hread => absurd hread (readCompactSize_ne_ok (by omega))

section Loop

variable {buf : List UInt8} (hbuf : buf.length < 2 ^ 31) {pos : ℕ} (hpos : pos ≤ buf.length)
  {before after : ℕ} (hbefore : before ≤ 36)

include hbuf hpos hbefore

/-- **The positions of a loop** go forwards if no script ends beyond `2 ^ 64`, as long as
those behind the loop do. -/
theorem isChain_scriptPositions_iff (next : ℕ → List ℕ) :
    ∀ count p, p ≤ buf.length + pos →
      ((p :: scriptPositions buf pos before after next count p).IsChain (· ≤ ·) ↔
        ScriptsFit buf before after count p ∧
          ∀ e, skipScripts buf pos before after count p = .ok e → (e :: next e).IsChain (· ≤ ·)) := by
  intro count
  induction count with
  | zero =>
    intro p _
    rw [scriptPositions, skipScripts, ScriptsFit]
    simp
  | succ count ih =>
    intro p hp
    have hmod : (p + before) % 2 ^ 64 = p + before := Nat.mod_eq_of_lt (by omega)
    rw [scriptPositions, skipScripts, ScriptsFit]
    dsimp only
    rw [hmod, List.isChain_cons_cons]
    cases hread : readCompactSize buf (p + before) with
    | error fault => simp [bind, Except.bind]
    | ok r =>
      obtain ⟨scriptLength, body⟩ := r
      obtain ⟨hlt, hle, -⟩ := readCompactSize_bounds hread
      have hsize : scriptSize scriptLength after < 2 ^ 64 := Nat.mod_lt _ (by decide)
      have hend : (body + (scriptLength + after)) % 2 ^ 64
          = (body + scriptSize scriptLength after) % 2 ^ 64 := by
        rw [scriptSize, Nat.add_mod_mod]
      simp only [bind, Except.bind, hend, List.isChain_cons_cons, Except.ok.injEq, Prod.mk.injEq,
        and_imp]
      rw [and_iff_right (by omega : p ≤ p + before), and_iff_right (le_of_lt hlt)]
      by_cases hfits : body + scriptSize scriptLength after < 2 ^ 64
      · rw [Nat.mod_eq_of_lt hfits]
        by_cases hgt : body + scriptSize scriptLength after > buf.length + pos
        · have htail := scriptsFit_of_le before after
            (by omega : buf.length ≤ body + scriptSize scriptLength after) count
          rw [if_pos hgt, if_pos hgt]
          refine iff_of_true ⟨by omega, List.isChain_singleton _⟩ ⟨?_, fun e he => (by cases he)⟩
          rintro _ _ rfl rfl
          exact ⟨hfits, htail⟩
        · rw [if_neg hgt, if_neg hgt, ih _ (by omega)]
          constructor
          · rintro ⟨-, htail, hrest⟩
            refine ⟨?_, hrest⟩
            rintro _ _ rfl rfl
            exact ⟨hfits, htail⟩
          · rintro ⟨hscripts, hrest⟩
            exact ⟨by omega, (hscripts _ _ rfl rfl).2, hrest⟩
      · -- the position wraps around and is in front of the script
        refine iff_of_false ?_ ?_
        · rintro ⟨hback, -⟩
          omega
        · rintro ⟨hscripts, -⟩
          exact hfits (hscripts _ _ rfl rfl).1

variable (hbefore8 : 8 ≤ before)

include hbefore8

/-- **Where a loop ends.**  Every round takes three steps and goes over at least nine bytes. -/
theorem skipScripts_of_fits (next : ℕ → List ℕ) :
    ∀ count p, p ≤ buf.length + pos → ScriptsFit buf before after count p →
      (∃ what, skipScripts buf pos before after count p = .error (.runtimeError what) ∧
        (scriptPositions buf pos before after next count p).length ≤ buf.length - p + 3 ∧
        ∀ e, scriptsEnd buf before after count p = some e → buf.length < e) ∨
      ∃ e, skipScripts buf pos before after count p = .ok e ∧
        scriptsEnd buf before after count p = some e ∧ p ≤ e ∧ e ≤ buf.length + pos ∧
        (scriptPositions buf pos before after next count p).length + p ≤ (next e).length + e ∧
        (scriptPositions buf pos before after next count p).length
          ≤ (next e).length + (buf.length - p) + 3 := by
  intro count
  induction count with
  | zero =>
    intro p hp _
    refine .inr ⟨p, rfl, rfl, le_refl _, hp, le_refl _, ?_⟩
    rw [scriptPositions]
    omega
  | succ count ih =>
    intro p hp hfits
    have hmod : (p + before) % 2 ^ 64 = p + before := Nat.mod_eq_of_lt (by omega)
    rw [scriptPositions, skipScripts, scriptsEnd]
    dsimp only
    rw [hmod]
    cases hread : readCompactSize buf (p + before) with
    | error fault =>
      obtain ⟨what, rfl⟩ := readCompactSize_error hread
      left
      exact ⟨what, rfl, by simp, fun e he => (by cases he)⟩
    | ok r =>
      obtain ⟨scriptLength, body⟩ := r
      obtain ⟨hlt, hle, -⟩ := readCompactSize_bounds hread
      obtain ⟨hfit, htail⟩ := hfits scriptLength body hread
      have hend : (body + (scriptLength + after)) % 2 ^ 64
          = body + scriptSize scriptLength after := by
        rw [← Nat.mod_eq_of_lt hfit, scriptSize, Nat.add_mod_mod]
      simp only [bind, Except.bind, hend, List.length_cons]
      by_cases hgt : body + scriptSize scriptLength after > buf.length + pos
      · left
        rw [if_pos hgt, if_pos hgt]
        refine ⟨_, rfl, by simp, ?_⟩
        -- behind the end there is nothing to read
        intro e he
        cases count with
        | zero =>
          obtain rfl := Option.some.inj he
          omega
        | succ count =>
          rw [scriptsEnd] at he
          split at he
          next => cases he
          next hok => exact absurd hok (readCompactSize_ne_ok (by omega))
      · rw [if_neg hgt, if_neg hgt]
        rcases ih _ (by omega) htail with ⟨what, herr, hlen, hfar⟩ |
          ⟨e, hok, hsome, hge, hle', hlen, hlen'⟩
        · exact .inl ⟨what, herr, by omega, hfar⟩
        · exact .inr ⟨e, hok, hsome, by omega, hle', by omega, by omega⟩

end Loop

/-! ## One transaction -/

/-- The values behind the inputs. -/
def outputPositions (buf : List UInt8) (pos positionInStream : ℕ) : List ℕ :=
  match readCompactSize buf positionInStream with
  | .error _ => []
  | .ok (outCount, outputs) =>
      outputs :: scriptPositions buf pos 8 0
        (fun positionInStream => [(positionInStream + 4) % 2 ^ 64]) outCount outputs

theorem positions_eq (buf : List UInt8) (pos : ℕ) :
    positions buf pos = (pos + 4) :: match readCompactSize buf (pos + 4) with
      | .error _ => []
      | .ok (inCount, inputs) =>
          inputs :: scriptPositions buf pos (32 + 4) 4 (outputPositions buf pos) inCount inputs :=
  rfl

section Transaction

variable {buf : List UInt8} (hbuf : buf.length < 2 ^ 31) {pos : ℕ} (hpos : pos ≤ buf.length)

include hbuf hpos

theorem isChain_outputPositions_iff (e : ℕ) :
    (e :: outputPositions buf pos e).IsChain (· ≤ ·) ↔
      ∀ outCount outputs, readCompactSize buf e = .ok (outCount, outputs) →
        ScriptsFit buf 8 0 outCount outputs := by
  rw [outputPositions]
  cases hread : readCompactSize buf e with
  | error fault => simp
  | ok r =>
    obtain ⟨outCount, outputs⟩ := r
    obtain ⟨hlt, hle, -⟩ := readCompactSize_bounds hread
    dsimp only
    rw [List.isChain_cons_cons, and_iff_right (le_of_lt hlt),
      isChain_scriptPositions_iff hbuf hpos (by decide) _ outCount outputs (by omega)]
    constructor
    · rintro ⟨hfits, -⟩ _ _ heq
      rw [Except.ok.injEq, Prod.mk.injEq] at heq
      obtain ⟨rfl, rfl⟩ := heq
      exact hfits
    · intro hfits
      have hfits := hfits _ _ rfl
      refine ⟨hfits, ?_⟩
      intro e' he'
      rcases skipScripts_of_fits hbuf hpos (by decide) (by decide) (fun _ => []) outCount outputs
        (by omega) hfits with ⟨what, herr, -⟩ | ⟨e'', hok, -, -, hle', -⟩
      · rw [herr] at he'
        cases he'
      · rw [hok, Except.ok.injEq] at he'
        subst he'
        rw [List.isChain_cons_cons, Nat.mod_eq_of_lt (by omega)]
        exact ⟨by omega, List.isChain_singleton _⟩

/-- **The positions of a transaction** go forwards exactly when its scripts fit. -/
theorem isChain_positions_iff :
    (pos :: positions buf pos).IsChain (· ≤ ·) ↔ TxFits buf pos := by
  rw [positions_eq, TxFits, inputsEnd]
  cases hread : readCompactSize buf (pos + 4) with
  | error fault => simp
  | ok r =>
    obtain ⟨inCount, inputs⟩ := r
    obtain ⟨hlt, hle, -⟩ := readCompactSize_bounds hread
    dsimp only
    rw [List.isChain_cons_cons, List.isChain_cons_cons, and_iff_right (Nat.le_add_right _ _),
      and_iff_right (le_of_lt hlt),
      isChain_scriptPositions_iff hbuf hpos (by decide) _ inCount inputs (by omega)]
    have hin : (∀ inCount' inputs',
        (Except.ok (inCount, inputs) : Except Fault _) = .ok (inCount', inputs') →
        ScriptsFit buf (32 + 4) 4 inCount' inputs') ↔ ScriptsFit buf (32 + 4) 4 inCount inputs := by
      constructor
      · exact fun h => h _ _ rfl
      · rintro h _ _ heq
        rw [Except.ok.injEq, Prod.mk.injEq] at heq
        obtain ⟨rfl, rfl⟩ := heq
        exact h
    rw [hin]
    apply and_congr_right
    intro hfits
    -- the loop over the inputs ends where they end, or they end behind the buffer
    rcases skipScripts_of_fits hbuf hpos (by decide) (by decide) (fun _ => []) inCount inputs
      (by omega) hfits with ⟨what, herr, -, hfar⟩ | ⟨e, hok, hsome, -⟩
    · refine iff_of_true (fun e he => ?_) (fun p hp outCount outputs hread' => ?_)
      · rw [herr] at he
        cases he
      · exact absurd hread' (readCompactSize_ne_ok (le_of_lt (hfar p hp)))
    · rw [hok, hsome]
      constructor
      · intro h p hp
        obtain rfl := Option.some.inj hp
        exact (isChain_outputPositions_iff hbuf hpos e).mp (h e rfl)
      · intro h p hp
        obtain rfl := Except.ok.inj hp
        exact (isChain_outputPositions_iff hbuf hpos e).mpr (h e rfl)

/-- The loop over the outputs, and what is behind it. -/
theorem outputs_of_fits {outCount outputs : ℕ} (hle : outputs ≤ buf.length)
    (hfits : ScriptsFit buf 8 0 outCount outputs) :
    (∃ what, skipScripts buf pos 8 0 outCount outputs = .error (.runtimeError what) ∧
      (scriptPositions buf pos 8 0 (fun p => [(p + 4) % 2 ^ 64]) outCount outputs).length
        ≤ buf.length - outputs + 4 ∧
      ∀ e, scriptsEnd buf 8 0 outCount outputs = some e → buf.length < e) ∨
    ∃ e, skipScripts buf pos 8 0 outCount outputs = .ok e ∧
      scriptsEnd buf 8 0 outCount outputs = some e ∧ outputs ≤ e ∧ e ≤ buf.length + pos ∧
      (scriptPositions buf pos 8 0 (fun p => [(p + 4) % 2 ^ 64]) outCount outputs).length
        + outputs ≤ e + 1 ∧
      (scriptPositions buf pos 8 0 (fun p => [(p + 4) % 2 ^ 64]) outCount outputs).length
        ≤ buf.length - outputs + 4 := by
  rcases skipScripts_of_fits hbuf hpos (by decide) (by decide) (fun p => [(p + 4) % 2 ^ 64])
    outCount outputs (by omega) hfits with ⟨what, herr, hlen, hfar⟩ |
    ⟨e, hok, hsome, hge, hle', hlen, hlen'⟩
  · exact .inl ⟨what, herr, by omega, hfar⟩
  · rw [List.length_singleton] at hlen hlen'
    exact .inr ⟨e, hok, hsome, hge, hle', by omega, by omega⟩

/-- **The size of a transaction** whose scripts fit: the number of bytes up to its end, and the
scan takes at most one step for each of them. -/
theorem transactionSize_of_fits (hfits : TxFits buf pos) :
    (positions buf pos).length ≤ buf.length - pos + 9 ∧
    ((∃ what, transactionSize buf pos = .error (.runtimeError what) ∧
      ∀ e, txEnd buf pos = some e → buf.length < e) ∨
    ∃ e : ℕ, transactionSize buf pos = .ok (toInt32 ((e : ℤ) - pos)) ∧
      txEnd buf pos = some e ∧ pos + 10 ≤ e ∧ pos + 6 ≤ buf.length ∧ e ≤ buf.length + pos + 4 ∧
      (positions buf pos).length + pos < e) := by
  obtain ⟨hins, houts⟩ := hfits
  rw [positions_eq, transactionSize, txEnd]
  rw [inputsEnd] at houts ⊢
  cases hread : readCompactSize buf (pos + 4) with
  | error fault =>
    obtain ⟨what, rfl⟩ := readCompactSize_error hread
    exact ⟨by simp, .inl ⟨what, rfl, fun e he => (by cases he)⟩⟩
  | ok r =>
    obtain ⟨inCount, inputs⟩ := r
    obtain ⟨hlt, hle, -⟩ := readCompactSize_bounds hread
    rw [hread] at houts
    simp only [bind, Except.bind, Option.bind, List.length_cons] at houts ⊢
    rcases skipScripts_of_fits hbuf hpos (by decide) (by decide) (outputPositions buf pos) inCount
      inputs (by omega) (hins _ _ hread) with ⟨what, herr, hlen, hfar⟩ |
      ⟨p, hok, hsome, hge, hle', hlen, hlen'⟩
    · refine ⟨by omega, .inl ⟨what, by rw [herr], ?_⟩⟩
      -- behind the end there is no number of outputs
      intro e he
      cases hend : scriptsEnd buf (32 + 4) 4 inCount inputs with
      | none =>
        rw [hend] at he
        cases he
      | some p =>
        rw [hend] at he
        dsimp only at he
        split at he
        next => cases he
        next hok => exact absurd hok (readCompactSize_ne_ok (le_of_lt (hfar p hend)))
    · rw [hok, hsome]
      dsimp only
      have hout := houts p hsome
      rw [outputPositions] at hlen hlen'
      cases hread' : readCompactSize buf p with
      | error fault =>
        obtain ⟨what, rfl⟩ := readCompactSize_error hread'
        rw [hread', List.length_nil] at hlen hlen'
        exact ⟨by omega, .inl ⟨what, rfl, fun e he => (by cases he)⟩⟩
      | ok r =>
        obtain ⟨outCount, outputs⟩ := r
        obtain ⟨hlt', hle'', -⟩ := readCompactSize_bounds hread'
        rw [hread', List.length_cons] at hlen hlen'
        rcases outputs_of_fits hbuf hpos hle'' (hout _ _ hread') with ⟨what, herr, hl, hfar⟩ |
          ⟨e, hok', hsome', hge', hbound, hl, hl'⟩
        · refine ⟨by omega, .inl ⟨what, by dsimp only; rw [herr], ?_⟩⟩
          intro e he
          obtain ⟨e', he', rfl⟩ := Option.map_eq_some_iff.mp he
          have := hfar e' he'
          omega
        · refine ⟨by omega, .inr ⟨e + 4, ?_, ?_, by omega, by omega, by omega, by omega⟩⟩
          · dsimp only
            rw [hok']
            dsimp only
            rw [Nat.mod_eq_of_lt (by omega)]
          · dsimp only
            rw [hsome']
            rfl

end Transaction

/-! ## All transactions -/

theorem txsFit_of_le {buf : List UInt8} {pos : ℕ} (h : buf.length ≤ pos) :
    ∀ count, TxsFit buf count pos
  | 0 => trivial
  | count + 1 => by
      have hread : ∀ n p, readCompactSize buf (pos + 4) ≠ .ok (n, p) := fun n p =>
        readCompactSize_ne_ok (by omega)
      have hin : inputsEnd buf pos = none := by
        rw [inputsEnd]
        split
        next => rfl
        next hok => exact absurd hok (hread _ _)
      refine ⟨⟨fun n p hok => absurd hok (hread n p), fun p hp => ?_⟩, fun p hp => ?_⟩
      · rw [hin] at hp
        cases hp
      · rw [txEnd, hin] at hp
        cases hp

section Block

variable {data : ConstBuffer} {pos : ℕ}

/-- What the loop does with one transaction: throw, or cut it out and go on at its end. -/
theorem tx_of_fits (hpos : pos ≤ data.bytes.length) (hfits : TxFits data.bytes pos) :
    (positions data.bytes pos).length ≤ data.bytes.length - pos + 9 ∧
    (((∀ e, txEnd data.bytes pos = some e → data.bytes.length < e) ∧
      ∀ count, scanLoop data (count + 1) pos = [pos :: positions data.bytes pos] ∧
        ∃ what, findLoop data (count + 1) pos = .error (.runtimeError what)) ∨
    ∃ e tx, txEnd data.bytes pos = some e ∧ pos < e ∧ e ≤ data.bytes.length ∧
      (positions data.bytes pos).length + pos < e ∧ tx.start = pos ∧
      tx.data.bytes = slice data.bytes pos e ∧
      ∀ count, scanLoop data (count + 1) pos
          = (pos :: positions data.bytes pos) :: scanLoop data count e ∧
        findLoop data (count + 1) pos = (findLoop data count e).map (tx :: ·)) := by
  have hsize := data.size_lt
  obtain ⟨hlen, hcases⟩ := transactionSize_of_fits hsize hpos hfits
  refine ⟨hlen, ?_⟩
  rcases hcases with ⟨what, herr, hfar⟩ | ⟨e, hok, hend, hge, hroom, hle, hsteps⟩
  · refine .inl ⟨hfar, fun count => ⟨?_, what, ?_⟩⟩
    · rw [scanLoop, herr]
    · rw [findLoop, herr]
      rfl
  · rcases Nat.lt_or_ge data.bytes.length e with hfar | hin
    · -- the size may be negative as an `int`, but the sum with the position is then huge
      have hgt : (toInt32 ((e : ℤ) - pos) + pos) % 2 ^ 64 > data.bytes.length := by
        rw [toInt32, Int.bmod_def]
        omega
      refine .inl ⟨?_, fun count =>
        ⟨?_, "FastBlock::findTransactions: not enough bytes", ?_⟩⟩
      · intro e' he'
        rw [hend, Option.some.injEq] at he'
        omega
      · rw [scanLoop, hok]
        dsimp only
        rw [if_pos hgt]
      · rw [findLoop, hok]
        simp only [bind, Except.bind]
        rw [if_pos hgt]
    · have hint : toInt32 ((e : ℤ) - pos) = (e : ℤ) - pos := toInt32_of_lt (by omega) (by omega)
      have hnot : ¬ ((e : ℤ) - pos + pos) % 2 ^ 64 > data.bytes.length := by omega
      have hnext : ((pos + ((e : ℤ) - pos)) % 2 ^ 64).toNat = e := by omega
      have hslice : slice data.bytes pos e = (data.bytes.drop pos).take (e - pos) := by
        rw [slice, List.drop_take]
      have hdrop : data.bytes.drop pos = slice data.bytes pos e ++ (data.bytes.drop pos).drop (e - pos) := by
        rw [hslice, List.take_append_drop]
      have hlength : (slice data.bytes pos e).length = e - pos := by
        rw [hslice, List.length_take, List.length_drop]
        omega
      obtain ⟨tx, hmid, hstart, hbytes⟩ := mid_spec data hdrop (by omega)
      have hcast : ((slice data.bytes pos e).length : ℤ) = (e : ℤ) - pos := by omega
      rw [hcast] at hmid
      refine .inr ⟨e, tx, hend, by omega, hin, hsteps, hstart, hbytes, fun count => ⟨?_, ?_⟩⟩
      · rw [scanLoop, hok, hint]
        dsimp only
        rw [if_neg hnot, hmid]
        dsimp only
        rw [hnext]
      · rw [findLoop, hok, hint]
        simp only [bind, Except.bind]
        rw [if_neg hnot, hmid]
        dsimp only
        rw [hnext]
        cases findLoop data count e <;> rfl

/-- **The loop over the transactions.** -/
theorem scanLoop_spec : ∀ (count pos : ℕ), pos ≤ data.bytes.length →
    ((∀ l ∈ scanLoop data count pos, l.IsChain (· ≤ ·)) ↔ TxsFit data.bytes count pos) ∧
    (TxsFit data.bytes count pos →
      ((scanLoop data count pos).map List.length).sum ≤ data.bytes.length - pos + 10 ∧
      ((∃ what, findLoop data count pos = .error (.runtimeError what)) ∨
        ∃ txs stop, findLoop data count pos = .ok txs ∧ Contiguous pos txs stop ∧
          stop ≤ data.bytes.length ∧ ∀ tx ∈ txs, 0 < tx.data.bytes.length ∧
            tx.start + tx.data.bytes.length ≤ data.bytes.length ∧
            tx.data.bytes = slice data.bytes tx.start (tx.start + tx.data.bytes.length))) := by
  intro count
  induction count with
  | zero =>
    intro pos hpos
    refine ⟨?_, fun _ => ⟨?_, .inr ⟨[], pos, rfl, rfl, hpos, fun tx htx => (by cases htx)⟩⟩⟩
    · simp [scanLoop, TxsFit]
    · simp [scanLoop]
  | succ count ih =>
    intro pos hpos
    have hchain := isChain_positions_iff data.size_lt hpos
    by_cases hfits : TxFits data.bytes pos
    · obtain ⟨hlen, ⟨hfar, hrun⟩ | ⟨e, tx, hend, hlt, hin, hsteps, hstart, hbytes, hrun⟩⟩ :=
        tx_of_fits hpos hfits
      · obtain ⟨hscan, herr⟩ := hrun count
        rw [hscan]
        refine ⟨iff_of_true ?_ ⟨hfits, fun e he => txsFit_of_le (le_of_lt (hfar e he)) count⟩,
          fun _ => ⟨?_, .inl herr⟩⟩
        · intro l hl
          rw [List.mem_singleton.mp hl]
          exact hchain.mpr hfits
        · simp only [List.map_cons, List.map_nil, List.sum_cons, List.sum_nil, List.length_cons]
          omega
      · obtain ⟨hscan, hfind⟩ := hrun count
        obtain ⟨hiff, hrest⟩ := ih e hin
        rw [hscan, hfind, List.forall_mem_cons, hiff, hchain, TxsFit, hend]
        refine ⟨and_congr_right fun _ => ⟨fun h p hp => ?_, fun h => h e rfl⟩, ?_⟩
        · obtain rfl := Option.some.inj hp
          exact h
        · rintro ⟨-, htail⟩
          obtain ⟨hsum, hout⟩ := hrest (htail e rfl)
          refine ⟨?_, ?_⟩
          · rw [List.map_cons, List.sum_cons, List.length_cons]
            omega
          · rcases hout with ⟨what, herr⟩ | ⟨txs, stop, hok, hcont, hstop, hslices⟩
            · rw [herr]
              exact .inl ⟨what, rfl⟩
            · rw [hok]
              have hsize : tx.data.bytes.length = e - pos := by
                rw [hbytes, slice, List.length_drop, List.length_take]
                omega
              have hstop' : pos + tx.data.bytes.length = e := by omega
              refine .inr ⟨tx :: txs, stop, rfl, ⟨hstart, ?_⟩, hstop, ?_⟩
              · rwa [hstop']
              · intro tx' htx'
                rcases List.mem_cons.mp htx' with rfl | hmem
                · rw [hstart, hstop']
                  exact ⟨by omega, hin, hbytes⟩
                · exact hslices tx' hmem
    · -- the positions of this transaction go backwards
      have hnot : ¬ TxsFit data.bytes (count + 1) pos := fun h => hfits h.1
      refine ⟨iff_of_false ?_ hnot, fun h => absurd h hnot⟩
      intro h
      apply hfits
      rw [← hchain]
      apply h
      rw [scanLoop]
      exact List.mem_cons_self

end Block

/-- A block whose number of transactions can be read. -/
theorem robust_iff_txsFit {data : ConstBuffer} {h : 80 ≤ data.bytes.length} {n pos count : ℕ}
    (hread : readCompactSize data.bytes 80 = .ok (n, pos)) (hcount : count = (toInt32 n).toNat) :
    Robust ⟨data, [], h⟩ ↔ 0 ≤ toInt32 n ∧ TxsFit data.bytes count pos := by
  obtain ⟨hlt, hle, -⟩ := readCompactSize_bounds hread
  have hscan : scan data = scanLoop data count pos := by rw [scan, hread, hcount]
  have hcollect : findTransactions ⟨data, [], h⟩ = collect ⟨data, [], h⟩ n pos := by
    rw [findTransactions, if_neg fun hc => hc rfl]
    simp only [hread, bind, Except.bind]
  obtain ⟨hiff, hrest⟩ := scanLoop_spec count pos hle
  constructor
  · rintro ⟨hout, hforward, -⟩
    rw [hscan] at hforward
    refine ⟨?_, hiff.mp hforward⟩
    by_contra hneg
    -- `reserve` throws `std::length_error`
    rw [hcollect, collect, if_pos (by omega)] at hout
    obtain ⟨what, hwhat⟩ := hout
    cases hwhat
  · rintro ⟨hpos, htxs⟩
    obtain ⟨hsum, hout⟩ := hrest htxs
    refine ⟨?_, ?_, ?_⟩
    · rw [hcollect, collect, if_neg (by omega), ← hcount]
      rcases hout with ⟨what, herr⟩ | ⟨txs, stop, hok, hcont, hstop, hslices⟩
      · rw [herr]
        exact ⟨what, rfl⟩
      · rw [hok]
        exact ⟨rfl, pos, stop, hlt, hstop, hcont, hslices⟩
    · rw [hscan]
      exact hiff.mpr htxs
    · rw [hscan]
      show _ ≤ data.bytes.length
      omega

/-- **The scan is robust**, on any buffer, exactly when the number of transactions is not
negative as an `int` and no script of theirs ends beyond `2 ^ 64`. -/
theorem robust_iff_blockFits (data : ConstBuffer) (h : 80 ≤ data.bytes.length) :
    Robust ⟨data, [], h⟩ ↔ BlockFits data.bytes := by
  cases hread : readCompactSize data.bytes 80 with
  | error fault =>
    obtain ⟨what, rfl⟩ := readCompactSize_error hread
    have hscan : scan data = [] := by rw [scan, hread]
    refine iff_of_true ⟨?_, ?_, ?_⟩ fun n pos hok => (by rw [hread] at hok; cases hok)
    · rw [findTransactions, if_neg fun hc => hc rfl]
      simp only [hread, bind, Except.bind]
      exact ⟨what, rfl⟩
    · simp [hscan]
    · simp [hscan]
  | ok r =>
    obtain ⟨n, pos⟩ := r
    rw [robust_iff_txsFit hread rfl]
    constructor
    · intro hb n' pos' hread'
      rw [hread, Except.ok.injEq, Prod.mk.injEq] at hread'
      obtain ⟨rfl, rfl⟩ := hread'
      exact hb
    · exact fun hb => hb n pos hread

/-- A block of one transaction with one input, whose script has the length field
`lengthField`, and one output. -/
def oneTransaction (lengthField : List UInt8) (h : lengthField.length ≤ 9) : ConstBuffer :=
  ⟨List.replicate 80 0 ++ [1] ++ [1, 0, 0, 0, 1] ++ List.replicate 36 7 ++ lengthField ++
    [0x51, 0xff, 0xff, 0xff, 0xff, 1] ++ List.replicate 8 0 ++ [1, 0x51, 0, 0, 0, 0], by
      simp
      omega⟩

theorem size_oneTransaction (lengthField : List UInt8) (h : lengthField.length ≤ 9) :
    80 ≤ (oneTransaction lengthField h).bytes.length := by
  simp [oneTransaction]

/-- A script of one byte. -/
theorem robust_iff_blockFits_oneTransaction :
    Robust ⟨oneTransaction [1] (by decide), [], size_oneTransaction _ _⟩ :=
  (robust_iff_blockFits _ _).mpr (by decide +kernel)

/-- A script of `2 ^ 64 - 50` bytes leads back into the version of the transaction. -/
theorem not_robust_backwards :
    ¬ Robust ⟨oneTransaction [0xff, 206, 0xff, 0xff, 0xff, 0xff, 0xff, 0xff, 0xff] (by decide), [],
      size_oneTransaction _ _⟩ := by
  intro h
  apply absurd h.forward
  decide +kernel

end FastBlock
