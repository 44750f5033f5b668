/-
# No script breaks the interpreter

Every access to a stack that `EvalScript` makes is in range, its arithmetic does not overflow,
and its loops end: the only exceptions that it catches come from the decoding of numbers.

The state of the proof is the number of elements on the stack, `At n`: each primitive has a rule
that says which depth it needs and which it leaves, and a rule for an operation goes through its
primitives one after the other.

* `exec_safe` : one case of the `switch`;
* `step_safe` : one round of the loop, which keeps `Bounded`;
* `evalScript_safe`, `verifyScript_safe` : whole evaluations.
-/
import Hub.ScriptFrame
import Mathlib.Logic.Relation

open ByteCodec Opcode Bytes Halting

namespace Script

/-! ## Safe programs -/

/-- No element is longer than 520 bytes. -/
def Small (m : Machine) : Prop :=
  (∀ v ∈ m.stack, v.length ≤ maxScriptElementSize) ∧
    ∀ v ∈ m.altstack, v.length ≤ maxScriptElementSize

/-- `n` elements on the stack, none of them too long. -/
def At (n : ℕ) (m : Machine) : Prop := m.stack.length = n ∧ Small m

/-- The halts that a script may cause: an error, or a number that does not decode. -/
def Clean (h : Halt) (m : Machine) : Prop :=
  ((∃ e, h = .error e) ∨ ∃ what, h = .scriptnum what) ∧ Small m

/-- From `n` elements on the stack the program ends in `Q` or halts cleanly. -/
def Safe {α : Type} (n : ℕ) (x : Prog α) (Q : α → Machine → Prop) : Prop := Sat (At n) x Q Clean

section

variable {α β : Type} {n : ℕ} {Q : β → Machine → Prop} {x : Prog β}

theorem clean_error (e : ScriptError) {m : Machine} (h : At n m) : Clean (.error e) m :=
  ⟨.inl ⟨e, rfl⟩, h.2⟩

theorem safe_pure {b : β} (h : ∀ m, At n m → Q b m) : Safe n (pure b) Q := sat_pure h

theorem safe_error (e : ScriptError) : Safe n (throw (.error e)) Q :=
  sat_throw fun _ hm => clean_error e hm

/-- The last part of a program is followed by nothing. -/
theorem safe_last {y : Prog β} (h : Safe n (y >>= pure) Q) : Safe n y Q := by
  rwa [bind_pure] at h

/-- A part that leaves the stack as deep as it is. -/
theorem Safe.bind {y : Prog α} {f : α → Prog β} {p : α → Prop}
    (hy : Safe n y fun a m => At n m ∧ p a) (hf : ∀ a, p a → Safe n (f a) Q) :
    Safe n (y >>= f) Q :=
  Sat.bind hy fun a => sat_of_and (hf a)

theorem safe_failIf {c : Prop} [Decidable c] {e : ScriptError} {f : Unit → Prog β}
    (h : ¬ c → Safe n (f ()) Q) : Safe n (failIf c e >>= f) Q :=
  Sat.bind (sat_haltIf fun _ hm => clean_error e hm) fun _ => sat_of_and h

/-- A halt whose condition is false. -/
theorem safe_haltIf {c : Prop} [Decidable c] {e : Halt} {f : Unit → Prog β} (hc : ¬ c)
    (h : Safe n (f ()) Q) : Safe n (haltIf c e >>= f) Q := by
  unfold haltIf doIf
  rwa [if_neg hc, pure_bind]

theorem safe_doIf {c : Prop} [Decidable c] {y : Prog Unit} {f : Unit → Prog β}
    (hy : c → Safe n (y >>= f) Q) (hf : ¬ c → Safe n (f ()) Q) :
    Safe n (doIf c y >>= f) Q := by
  unfold doIf
  split_ifs with hc
  · exact hy hc
  · rw [pure_bind]
    exact hf hc

theorem safe_get {f : Machine → Prog β}
    (h : ∀ m, At n m → Safe n (f m) Q) : Safe n (get >>= f) Q :=
  ⟨fun m hm => (h m hm).run m hm⟩

theorem safe_modify {k : ℕ} {g : Machine → Machine} {f : Unit → Prog β}
    (hg : ∀ m, At n m → At k (g m)) (h : Safe k (f ()) Q) : Safe n (modify g >>= f) Q :=
  ⟨fun m hm => h.run (g m) (hg m hm)⟩

theorem safe_require {k : ℕ} {e : ScriptError} {f : Unit → Prog β}
    (h : k ≤ n → Safe n (f ()) Q) : Safe n (require k e >>= f) Q := by
  unfold require
  rw [bind_assoc]
  refine safe_get fun m hm => safe_failIf fun hlen => h ?_
  rw [hm.1] at hlen
  omega

/-! ## The primitives -/

/-- An index from the top that is in range. -/
theorem at?_of_range {v : List α} {i : ℤ} (h : -(v.length : ℤ) ≤ i ∧ i < 0) :
    ∃ a ∈ v, at? v i = some a := by
  have hlt : (-i - 1).toNat < v.length := by omega
  refine ⟨_, List.getElem_mem hlt, ?_⟩
  rw [at?, if_pos h.2]
  exact List.getElem?_eq_getElem hlt

theorem safe_stacktop {i : ℤ} {f : Bytes → Prog β} (hi : -(n : ℤ) ≤ i ∧ i < 0)
    (h : ∀ vch, vch.length ≤ maxScriptElementSize → Safe n (f vch) Q) :
    Safe n (stacktop i >>= f) Q := by
  unfold stacktop
  rw [bind_assoc]
  refine safe_get fun m hm => ?_
  rw [← hm.1] at hi
  obtain ⟨vch, hmem, hat⟩ := at?_of_range hi
  rw [hat, pure_bind]
  exact h vch (hm.2.1 vch hmem)

theorem safe_pushBack {vch : Bytes} {f : Unit → Prog β}
    (hvch : vch.length ≤ maxScriptElementSize) (h : Safe (n + 1) (f ()) Q) :
    Safe n (pushBack vch >>= f) Q := by
  refine safe_modify (fun m hm => ⟨?_, ?_, hm.2.2⟩) h
  · rw [List.length_cons, hm.1]
  · intro v hv
    rcases List.mem_cons.mp hv with rfl | hv
    · exact hvch
    · exact hm.2.1 v hv

/-- A stack that is made of elements of the old one and `vch`. -/
theorem small_of_mem {m : Machine} {stack : List Bytes} {vch : Bytes} (hm : Small m)
    (hvch : vch.length ≤ maxScriptElementSize) (h : ∀ v ∈ stack, v = vch ∨ v ∈ m.stack) :
    Small { m with stack := stack } := by
  refine ⟨fun v hv => ?_, hm.2⟩
  rcases h v hv with rfl | hv
  · exact hvch
  · exact hm.1 v hv

theorem small_of_subset {m : Machine} {stack : List Bytes} (hm : Small m)
    (h : ∀ v ∈ stack, v ∈ m.stack) : Small { m with stack := stack } :=
  ⟨fun v hv => hm.1 v (h v hv), hm.2⟩

theorem safe_popstack {f : Unit → Prog β} (hn : 1 ≤ n) (h : Safe (n - 1) (f ()) Q) :
    Safe n (popstack >>= f) Q := by
  unfold popstack
  simp only [bind_assoc]
  refine safe_get fun m hm => safe_haltIf ?_ (safe_modify (fun m hm => ⟨?_, ?_⟩) h)
  · rintro hnil
    have := hm.1
    rw [hnil, List.length_nil] at this
    omega
  · rw [List.length_tail, hm.1]
  · exact small_of_subset hm.2 fun v hv => List.mem_of_mem_tail hv

theorem safe_setStacktop {i : ℤ} {vch : Bytes} {f : Unit → Prog β}
    (hi : -(n : ℤ) ≤ i ∧ i < 0) (hvch : vch.length ≤ maxScriptElementSize)
    (h : Safe n (f ()) Q) : Safe n (setStacktop i vch >>= f) Q := by
  unfold setStacktop
  simp only [bind_assoc]
  refine safe_stacktop hi fun _ _ => safe_modify (fun m hm => ⟨?_, ?_⟩) h
  · rw [List.length_set, hm.1]
  · exact small_of_mem hm.2 hvch fun v hv => (List.mem_or_eq_of_mem_set hv).symm

theorem safe_swapStacktop {i j : ℤ} {f : Unit → Prog β}
    (hi : -(n : ℤ) ≤ i ∧ i < 0) (hj : -(n : ℤ) ≤ j ∧ j < 0)
    (h : Safe n (f ()) Q) : Safe n (swapStacktop i j >>= f) Q := by
  unfold swapStacktop
  simp only [bind_assoc]
  exact safe_stacktop hi fun _ h₁ => safe_stacktop hj fun _ h₂ =>
    safe_setStacktop hi h₂ (safe_setStacktop hj h₁ h)

theorem safe_erase {a b : ℕ} {f : Unit → Prog β} (hab : b ≤ a ∧ a ≤ n)
    (h : Safe (n - (a - b)) (f ()) Q) : Safe n (erase a b >>= f) Q := by
  unfold erase
  simp only [bind_assoc]
  refine safe_get fun m hm => safe_haltIf (by rw [hm.1]; omega)
    (safe_modify (fun m hm => ⟨?_, ?_⟩) h)
  · rw [List.length_append, List.length_take, List.length_drop, hm.1]
    omega
  · refine small_of_subset hm.2 fun v hv => ?_
    rcases List.mem_append.mp hv with hv | hv
    · exact List.mem_of_mem_take hv
    · exact List.mem_of_mem_drop hv

theorem safe_insert {a : ℕ} {vch : Bytes} {f : Unit → Prog β} (ha : a ≤ n)
    (hvch : vch.length ≤ maxScriptElementSize) (h : Safe (n + 1) (f ()) Q) :
    Safe n (insert a vch >>= f) Q := by
  unfold insert
  simp only [bind_assoc]
  refine safe_get fun m hm => safe_haltIf (by rw [hm.1]; omega)
    (safe_modify (fun m hm => ⟨?_, ?_⟩) h)
  · rw [List.length_append, List.length_cons, List.length_take, List.length_drop, hm.1]
    omega
  · refine small_of_mem hm.2 hvch fun v hv => ?_
    rcases List.mem_append.mp hv with hv | hv
    · exact .inr (List.mem_of_mem_take hv)
    · rcases List.mem_cons.mp hv with hv | hv
      · exact .inl hv
      · exact .inr (List.mem_of_mem_drop hv)

theorem safe_intSize {f : ℤ → Prog β} (hn : n < 2 ^ 31) (h : Safe n (f n) Q) :
    Safe n (intSize >>= f) Q := by
  unfold intSize
  rw [bind_assoc]
  refine safe_get fun m hm => ?_
  rw [hm.1, toInt32_of_lt (by omega) (by omega), pure_bind]
  exact h

/-! ## Numbers -/

theorem length_serialize_small (value : ℤ) :
    (CScriptNum.serialize value).length ≤ maxScriptElementSize :=
  le_trans (CScriptNum.length_serialize_le value) (by decide)

theorem length_vchOf (b : Bool) : (vchOf b).length ≤ maxScriptElementSize := by
  cases b <;> decide

theorem safe_scriptNum {flags : Flags} {vch : Bytes} {k : ℕ} {f : CScriptNum → Prog β}
    (hk : 0 < k) (h : ∀ bn : CScriptNum, bn.m_value.natAbs < 128 * 256 ^ (k - 1) →
      Safe n (f bn) Q) : Safe n (scriptNum flags vch k >>= f) Q := by
  unfold scriptNum
  simp only [bind_assoc, pure_bind]
  have hthrow : ∀ what m, At n m → Clean (.scriptnum what) m :=
    fun what m hm => ⟨.inr ⟨what, rfl⟩, hm.2⟩
  refine Sat.bind (sat_haltIf (hthrow _)) fun _ => sat_of_and fun hlen => ?_
  refine Sat.bind (sat_haltIf (hthrow _)) fun _ => sat_of_and fun _ => ?_
  exact h _ (CScriptNum.natAbs_setVch_lt (by omega) hk)

/-- A number of four bytes at most. -/
theorem safe_defaultNum {flags : Flags} {vch : Bytes} {f : CScriptNum → Prog β}
    (h : ∀ bn : CScriptNum, -2 ^ 31 < bn.m_value ∧ bn.m_value < 2 ^ 31 → Safe n (f bn) Q) :
    Safe n (scriptNum flags vch defaultMaxNumSize >>= f) Q := by
  refine safe_scriptNum (by decide) fun bn hbn => h bn ?_
  have : 128 * 256 ^ (defaultMaxNumSize - 1) = 2 ^ 31 := by decide
  omega

theorem getint_of_range {bn : CScriptNum} (h : -2 ^ 31 < bn.m_value ∧ bn.m_value < 2 ^ 31) :
    bn.getint = bn.m_value := by
  unfold CScriptNum.getint
  rw [if_neg (by omega), if_neg (by omega)]

theorem safe_int64 {v : ℤ} {Q : CScriptNum → Machine → Prop} (hv : -2 ^ 63 ≤ v ∧ v < 2 ^ 63)
    (h : ∀ m, At n m → Q ⟨v⟩ m) : Safe n (int64 v) Q := by
  unfold int64
  exact safe_haltIf (not_not.mpr hv) (safe_pure h)

end

section

variable {n : ℕ}

/-- The values of the inner `switch` for one number. -/
theorem safe_unaryValue {opcode : Opcode} {bn : CScriptNum} (hop : caseOf opcode = .unary)
    (hbn : -2 ^ 31 < bn.m_value ∧ bn.m_value < 2 ^ 31) :
    Safe n (unaryValue opcode bn) fun _ m => At n m ∧ True := by
  have hcases : ∀ opcode, caseOf opcode = .unary → opcode = op1Add ∨ opcode = op1Sub ∨
      opcode = opNegate ∨ opcode = opAbs ∨ opcode = opNot ∨ opcode = op0NotEqual := by
    decide +kernel
  have hpure : ∀ b : CScriptNum, Safe n (pure b : Prog CScriptNum) fun _ m => At n m ∧ True :=
    fun b => safe_pure fun m hm => ⟨hm, trivial⟩
  have hneg : Safe n (negate bn) fun _ m => At n m ∧ True :=
    safe_haltIf (by omega) (safe_int64 (by omega) fun m hm => ⟨hm, trivial⟩)
  rcases hcases opcode hop with rfl | rfl | rfl | rfl | rfl | rfl
  · exact safe_haltIf (by omega) (safe_int64 (by omega) fun m hm => ⟨hm, trivial⟩)
  · exact safe_haltIf (by omega) (safe_int64 (by omega) fun m hm => ⟨hm, trivial⟩)
  · exact hneg
  · show Safe n (if bn.m_value < 0 then negate bn else pure bn) _
    exact sat_ite (fun _ => hneg) fun _ => hpure bn
  · exact hpure _
  · exact hpure _

/-- A quotient is no larger than what is divided. -/
theorem natAbs_tdiv_le (a b : ℤ) : (a.tdiv b).natAbs ≤ a.natAbs := by
  rw [Int.natAbs_tdiv]
  exact Nat.div_le_self _ _

theorem natAbs_tmod_le (a b : ℤ) : (a.tmod b).natAbs ≤ a.natAbs := by
  rw [Int.natAbs_tmod]
  exact Nat.mod_le _ _

/-- The values of the inner `switch` for two numbers. -/
theorem safe_binaryValue {opcode : Opcode} {bn1 bn2 : CScriptNum}
    (hop : caseOf opcode = .binary) (h1 : -2 ^ 31 < bn1.m_value ∧ bn1.m_value < 2 ^ 31)
    (h2 : -2 ^ 31 < bn2.m_value ∧ bn2.m_value < 2 ^ 31) :
    Safe n (binaryValue opcode bn1 bn2) fun _ m => At n m ∧ True := by
  have hcases : ∀ opcode, caseOf opcode = .binary → opcode = opAdd ∨ opcode = opSub ∨
      opcode = opDiv ∨ opcode = opMod ∨ opcode = opBoolAnd ∨ opcode = opBoolOr ∨
      opcode = opNumEqual ∨ opcode = opNumEqualVerify ∨ opcode = opNumNotEqual ∨
      opcode = opLessThan ∨ opcode = opGreaterThan ∨ opcode = opLessThanOrEqual ∨
      opcode = opGreaterThanOrEqual ∨ opcode = opMin ∨ opcode = opMax := by
    decide +kernel
  have hpure : ∀ b : CScriptNum, Safe n (pure b : Prog CScriptNum) fun _ m => At n m ∧ True :=
    fun b => safe_pure fun m hm => ⟨hm, trivial⟩
  have hdiv := natAbs_tdiv_le bn1.m_value bn2.m_value
  have hmod := natAbs_tmod_le bn1.m_value bn2.m_value
  rcases hcases opcode hop with rfl | rfl | rfl | rfl | rfl | rfl | rfl | rfl | rfl | rfl | rfl |
    rfl | rfl | rfl | rfl
  · exact safe_int64 (by omega) fun m hm => ⟨hm, trivial⟩
  · exact safe_int64 (by omega) fun m hm => ⟨hm, trivial⟩
  · exact safe_failIf fun hne =>
      safe_haltIf hne (safe_int64 (by omega) fun m hm => ⟨hm, trivial⟩)
  · exact safe_failIf fun hne => safe_haltIf hne
      (Safe.bind (p := fun _ => True) (safe_int64 (by omega) fun m hm => ⟨hm, trivial⟩)
        fun _ _ => safe_int64 (by omega) fun m hm => ⟨hm, trivial⟩)
  all_goals exact hpure _

/-! ## Encodings -/

/-- A byte inside the vector. -/
theorem isSome_bind_getElem? {γ : Type} {v : Bytes} {i : ℕ} {f : UInt8 → Option γ}
    (hi : i < v.length) (h : ∀ b, (f b).isSome) : (v[i]?.bind f).isSome := by
  rw [List.getElem?_eq_getElem hi, Option.bind_some]
  exact h _

/-- A test that ends the function with a value. -/
theorem isSome_ite_some {γ : Type} {c : Prop} [Decidable c] {a : γ} {y : Option γ}
    (h : ¬ c → y.isSome) : (if c then some a else y).isSome := by
  split_ifs with hc
  · rfl
  · exact h hc

theorem isSome_hasNullStart {sig : Bytes} {len i : ℕ} (h : 1 < len → i + 1 < sig.length) :
    (hasNullStart sig len i).isSome := by
  unfold hasNullStart
  split_ifs with hlen
  · refine isSome_bind_getElem? (by have := h hlen; omega) fun b => ?_
    split_ifs
    · rw [Option.isSome_map, List.getElem?_eq_getElem (h hlen)]
      rfl
    · rfl
  · rfl

/-- Every byte that `IsValidSignatureEncoding` looks at is there. -/
theorem isSome_isValidSignatureEncoding (sig : Bytes) :
    (isValidSignatureEncoding sig).isSome := by
  unfold isValidSignatureEncoding
  refine isSome_ite_some fun hlow => isSome_ite_some fun _ => ?_
  refine isSome_bind_getElem? (by omega) fun _ => isSome_ite_some fun _ => ?_
  refine isSome_bind_getElem? (by omega) fun _ => isSome_ite_some fun _ => ?_
  refine isSome_bind_getElem? (by omega) fun lenR => isSome_ite_some fun hR => ?_
  refine isSome_bind_getElem? (by omega) fun lenS => isSome_ite_some fun hS => ?_
  -- the two lengths add up to the length of the vector
  unfold areValidIntegers
  refine isSome_bind_getElem? (by omega) fun _ => isSome_ite_some fun _ => ?_
  refine isSome_ite_some fun _ => ?_
  refine isSome_bind_getElem? (by omega) fun _ => isSome_ite_some fun _ => ?_
  obtain ⟨null, hnull⟩ := Option.isSome_iff_exists.mp
    (isSome_hasNullStart (show 1 < lenR.toNat → 4 + 1 < sig.length by omega))
  rw [hnull, Option.bind_some]
  refine isSome_ite_some fun _ => ?_
  refine isSome_bind_getElem? (by omega) fun _ => isSome_ite_some fun _ => ?_
  refine isSome_ite_some fun _ => ?_
  refine isSome_bind_getElem? (by omega) fun _ => isSome_ite_some fun _ => ?_
  rw [Option.isSome_map]
  exact isSome_hasNullStart (by omega)

theorem safe_requireValidEncoding (vchSig : Bytes) :
    Safe n (requireValidEncoding vchSig) fun _ m => At n m ∧ True := by
  obtain ⟨valid, hvalid⟩ := Option.isSome_iff_exists.mp (isSome_isValidSignatureEncoding vchSig)
  unfold requireValidEncoding
  rw [hvalid]
  exact safe_last (safe_failIf fun _ => safe_pure fun m hm => ⟨hm, trivial⟩)

theorem safe_checkSignatureEncoding (crypto : Crypto) (flags : Flags) (vchSig : Bytes) :
    Safe n (checkSignatureEncoding crypto flags vchSig) fun _ m => At n m ∧ True := by
  have hdone : Safe n (pure () : Prog Unit) fun _ m => At n m ∧ True :=
    safe_pure fun m hm => ⟨hm, trivial⟩
  have hvalid := safe_requireValidEncoding (n := n) vchSig
  have hlow : Safe n (isLowDERSignature crypto vchSig) fun _ m => At n m ∧ True :=
    hvalid.bind fun _ _ => safe_last (safe_failIf fun _ => hdone)
  have htype : Safe n (checkHashType flags vchSig) fun _ m => At n m ∧ True :=
    safe_failIf fun _ => safe_failIf fun _ => safe_last (safe_failIf fun _ => hdone)
  refine sat_doIf (fun _ => ?_) fun _ _ hm => ⟨hm, trivial⟩
  refine safe_doIf (fun _ => hvalid.bind fun _ _ => ?_) fun _ => ?_
  all_goals
    refine safe_doIf (fun _ => hlow.bind fun _ _ => ?_) fun _ => ?_
  all_goals exact sat_doIf (fun _ => htype) fun _ _ hm => ⟨hm, trivial⟩

theorem safe_checkPubKeyEncoding (flags : Flags) (vchPubKey : Bytes) :
    Safe n (checkPubKeyEncoding flags vchPubKey) fun _ m => At n m ∧ True :=
  safe_last (safe_failIf fun _ => safe_pure fun _ hm => ⟨hm, trivial⟩)

theorem safe_checkSig (checker : BaseSignatureChecker) (flags : Flags) (vchSig vchPubKey : Bytes)
    (scriptCode : CScript) :
    Safe n (checkSig checker flags vchSig vchPubKey scriptCode) fun _ m => At n m ∧ True :=
  safe_modify (fun _ hm => hm) (safe_pure fun _ hm => ⟨hm, trivial⟩)

/-! ## The operations -/

theorem safe_done : Safe n (pure () : Prog Unit) fun _ => Small := safe_pure fun _ hm => hm.2

theorem safe_verifyResult {fSuccess : Bool} {e : ScriptError} (hn : 1 ≤ n) :
    Safe n (verifyResult fSuccess e) fun _ => Small :=
  safe_failIf fun _ => safe_last (safe_popstack hn safe_done)

/-- A result goes on the stack, and off again in the operations with a `VERIFY`. -/
theorem safe_pushResult {fSuccess : Bool} {c : Prop} [Decidable c] {e : ScriptError} :
    Safe n (do pushBack (vchOf fSuccess); doIf c (verifyResult fSuccess e)) fun _ => Small :=
  safe_pushBack (length_vchOf _)
    (sat_doIf (fun _ => safe_verifyResult (by omega)) fun _ _ hm => hm.2)

theorem safe_pushNumber (opcode : Opcode) : Safe n (pushNumber opcode) fun _ => Small :=
  safe_last (safe_pushBack (length_serialize_small _) safe_done)

theorem safe_notEnabled (flags : Flags) : Safe n (notEnabled flags) fun _ => Small :=
  safe_last (safe_failIf fun _ => safe_done)

theorem safe_checkLockTimeVerify (checker : BaseSignatureChecker) (flags : Flags) :
    Safe n (checkLockTimeVerify checker flags) fun _ => Small := by
  refine sat_ite (fun _ => safe_notEnabled flags) fun _ => ?_
  refine safe_require fun h => safe_stacktop (by omega) fun _ _ => ?_
  refine safe_scriptNum (by omega) fun _ _ => safe_failIf fun _ => ?_
  exact safe_last (safe_failIf fun _ => safe_done)

theorem safe_checkSequenceVerify (checker : BaseSignatureChecker) (flags : Flags) :
    Safe n (checkSequenceVerify checker flags) fun _ => Small := by
  refine sat_ite (fun _ => safe_notEnabled flags) fun _ => ?_
  refine safe_require fun h => safe_stacktop (by omega) fun _ _ => ?_
  refine safe_scriptNum (by omega) fun _ _ => safe_failIf fun _ => ?_
  exact sat_doIf (fun _ => safe_last (safe_failIf fun _ => safe_done)) fun _ _ hm => hm.2

theorem safe_ifOrNotIf (opcode : Opcode) (fExec : Bool) :
    Safe n (ifOrNotIf opcode fExec) fun _ => Small := by
  refine sat_ite (fun _ => ?_) fun _ => ?_
  · refine safe_require fun h => safe_stacktop (by omega) fun _ _ => ?_
    exact safe_popstack h (safe_last (safe_modify (fun _ hm => hm) safe_done))
  · exact safe_last (safe_modify (fun _ hm => hm) safe_done)

theorem safe_elseBranch : Safe n elseBranch fun _ => Small :=
  safe_get fun _ _ => safe_failIf fun _ => safe_last (safe_modify (k := n) (fun _ hm => hm) safe_done)

theorem safe_endIf : Safe n endIf fun _ => Small :=
  safe_get fun _ _ => safe_failIf fun _ => safe_last (safe_modify (k := n) (fun _ hm => hm) safe_done)

theorem safe_verify : Safe n verify fun _ => Small :=
  safe_require fun h => safe_stacktop (by omega) fun _ _ => safe_verifyResult h

theorem safe_toAltStack : Safe n toAltStack fun _ => Small := by
  refine safe_require fun h => safe_stacktop (by omega) fun vch hvch => ?_
  refine safe_modify (k := n) (fun m hm => ⟨hm.1, hm.2.1, ?_⟩)
    (safe_last (safe_popstack h safe_done))
  intro v hv
  rcases List.mem_cons.mp hv with rfl | hv
  · exact hvch
  · exact hm.2.2 v hv

/-- The other stack has an element, so that its top can be copied and taken away. -/
theorem safe_fromAltStack : Safe n fromAltStack fun _ => Small := by
  refine ⟨fun m hm => ?_⟩
  by_cases hnil : m.altstack.length < 1
  · have hrun : fromAltStack m = .error (.error .invalidAltStackOperation) m := by
      simp only [fromAltStack, failIf, bind_apply, get_apply, haltIf_apply_of_pos hnil]
    rw [hrun]
    exact clean_error _ hm
  · obtain ⟨vch, hmem, hat⟩ := at?_of_range (v := m.altstack) (i := -1) (by omega)
    have hne : m.altstack ≠ [] := by
      intro h
      rw [h] at hnil
      exact hnil Nat.one_pos
    have hrun : fromAltStack m
        = .ok () { m with stack := vch :: m.stack, altstack := m.altstack.tail } := by
      simp only [fromAltStack, failIf, altstacktop, pushBack, popAltstack, bind_apply, get_apply,
        haltIf_apply_of_neg hnil, hat, pure_apply, modify_apply, haltIf_apply_of_neg hne]
    rw [hrun]
    refine ⟨?_, fun v hv => hm.2.2 v (List.mem_of_mem_tail hv)⟩
    intro v hv
    rcases List.mem_cons.mp hv with rfl | hv
    · exact hm.2.2 _ hmem
    · exact hm.2.1 v hv

theorem safe_twoDrop : Safe n twoDrop fun _ => Small :=
  safe_require fun h => safe_popstack (by omega) (safe_last (safe_popstack (by omega) safe_done))

theorem safe_twoDup : Safe n twoDup fun _ => Small :=
  safe_require fun h => safe_stacktop (by omega) fun _ h₁ => safe_stacktop (by omega) fun _ h₂ =>
    safe_pushBack h₁ (safe_last (safe_pushBack h₂ safe_done))

theorem safe_threeDup : Safe n threeDup fun _ => Small :=
  safe_require fun h => safe_stacktop (by omega) fun _ h₁ => safe_stacktop (by omega) fun _ h₂ =>
    safe_stacktop (by omega) fun _ h₃ =>
      safe_pushBack h₁ (safe_pushBack h₂ (safe_last (safe_pushBack h₃ safe_done)))

theorem safe_twoOver : Safe n twoOver fun _ => Small :=
  safe_require fun h => safe_stacktop (by omega) fun _ h₁ => safe_stacktop (by omega) fun _ h₂ =>
    safe_pushBack h₁ (safe_last (safe_pushBack h₂ safe_done))

theorem safe_twoRot : Safe n twoRot fun _ => Small :=
  safe_require fun h => safe_stacktop (by omega) fun _ h₁ => safe_stacktop (by omega) fun _ h₂ =>
    safe_erase (by omega) (safe_pushBack h₁ (safe_last (safe_pushBack h₂ safe_done)))

theorem safe_twoSwap : Safe n twoSwap fun _ => Small :=
  safe_require fun h => safe_swapStacktop (by omega) (by omega)
    (safe_last (safe_swapStacktop (by omega) (by omega) safe_done))

theorem safe_ifDup : Safe n ifDup fun _ => Small :=
  safe_require fun h => safe_stacktop (by omega) fun _ hvch =>
    sat_doIf (fun _ => safe_last (safe_pushBack hvch safe_done)) fun _ _ hm => hm.2

theorem safe_depth : Safe n depth fun _ => Small :=
  safe_get fun _ _ => safe_last (safe_pushBack (length_serialize_small _) safe_done)

theorem safe_drop : Safe n drop fun _ => Small :=
  safe_require fun h => safe_last (safe_popstack h safe_done)

theorem safe_dup : Safe n dup fun _ => Small :=
  safe_require fun h => safe_stacktop (by omega) fun _ hvch =>
    safe_last (safe_pushBack hvch safe_done)

theorem safe_nip : Safe n nip fun _ => Small :=
  safe_require fun h => safe_last (safe_erase (by omega) safe_done)

theorem safe_overOp : Safe n overOp fun _ => Small :=
  safe_require fun h => safe_stacktop (by omega) fun _ hvch =>
    safe_last (safe_pushBack hvch safe_done)

/-- The index of `OP_PICK` and `OP_ROLL` comes off the stack, and is below what is left of
it. -/
theorem safe_pickOrRoll (flags : Flags) (opcode : Opcode) (hn : n ≤ 1000) :
    Safe n (pickOrRoll flags opcode) fun _ => Small := by
  refine safe_require fun h => safe_stacktop (by omega) fun _ _ => ?_
  refine safe_defaultNum fun bn hbn => safe_popstack (by omega) ?_
  refine safe_intSize (by omega) ?_
  rw [getint_of_range hbn]
  refine safe_failIf fun hrange => safe_stacktop (by omega) fun vch hvch => ?_
  refine safe_doIf (fun _ => safe_erase (by omega) ?_) fun _ => ?_
  · exact safe_last (safe_pushBack hvch safe_done)
  · exact safe_last (safe_pushBack hvch safe_done)

theorem safe_rot : Safe n rot fun _ => Small :=
  safe_require fun h => safe_swapStacktop (by omega) (by omega)
    (safe_last (safe_swapStacktop (by omega) (by omega) safe_done))

theorem safe_swap : Safe n swap fun _ => Small :=
  safe_require fun h => safe_last (safe_swapStacktop (by omega) (by omega) safe_done)

theorem safe_tuck : Safe n tuck fun _ => Small :=
  safe_require fun h => safe_stacktop (by omega) fun _ hvch =>
    safe_last (safe_insert (by omega) hvch safe_done)

theorem safe_size : Safe n size fun _ => Small :=
  safe_require fun h => safe_stacktop (by omega) fun _ _ =>
    safe_last (safe_pushBack (length_serialize_small _) safe_done)

theorem safe_bitwise (opcode : Opcode) : Safe n (bitwise opcode) fun _ => Small := by
  refine safe_require fun h => safe_stacktop (by omega) fun vch1 h₁ => ?_
  refine safe_stacktop (by omega) fun vch2 _ => safe_failIf fun _ => ?_
  refine safe_setStacktop (by omega) ?_ (safe_last (safe_popstack (by omega) safe_done))
  rw [List.length_zipWith]
  exact le_trans (min_le_left _ _) h₁

theorem safe_equal (opcode : Opcode) : Safe n (equal opcode) fun _ => Small :=
  safe_require fun h => safe_stacktop (by omega) fun _ _ => safe_stacktop (by omega) fun _ _ =>
    safe_popstack (by omega) (safe_popstack (by omega) safe_pushResult)

theorem safe_unary (flags : Flags) {opcode : Opcode} (hop : caseOf opcode = .unary) :
    Safe n (unary flags opcode) fun _ => Small := by
  refine safe_require fun h => safe_stacktop (by omega) fun _ _ => safe_defaultNum fun bn hbn => ?_
  refine (safe_unaryValue hop hbn).bind fun _ _ => safe_popstack (by omega) ?_
  exact safe_last (safe_pushBack (length_serialize_small _) safe_done)

theorem safe_binary (flags : Flags) {opcode : Opcode} (hop : caseOf opcode = .binary) :
    Safe n (binary flags opcode) fun _ => Small := by
  refine safe_require fun h => safe_stacktop (by omega) fun _ _ => safe_defaultNum fun bn1 h₁ => ?_
  refine safe_stacktop (by omega) fun _ _ => safe_defaultNum fun bn2 h₂ => ?_
  refine (safe_binaryValue hop h₁ h₂).bind fun _ _ => ?_
  refine safe_popstack (by omega) (safe_popstack (by omega) ?_)
  refine safe_pushBack (length_serialize_small _) (sat_doIf (fun _ => ?_) fun _ _ hm => hm.2)
  exact safe_stacktop (by omega) fun _ _ => safe_verifyResult (by omega)

theorem safe_within (flags : Flags) : Safe n (within flags) fun _ => Small := by
  refine safe_require fun h => safe_stacktop (by omega) fun _ _ => safe_defaultNum fun _ _ => ?_
  refine safe_stacktop (by omega) fun _ _ => safe_defaultNum fun _ _ => ?_
  refine safe_stacktop (by omega) fun _ _ => safe_defaultNum fun _ _ => ?_
  refine safe_popstack (by omega) (safe_popstack (by omega) (safe_popstack (by omega) ?_))
  exact safe_last (safe_pushBack (length_vchOf _) safe_done)

/-- A hash has 20 or 32 bytes. -/
theorem length_hashValue (crypto : Crypto) (opcode : Opcode) (vch : Bytes) :
    (hashValue crypto opcode vch).length ≤ maxScriptElementSize := by
  unfold hashValue
  split_ifs <;> simp [maxScriptElementSize]

theorem safe_hash (crypto : Crypto) (opcode : Opcode) :
    Safe n (hash crypto opcode) fun _ => Small :=
  safe_require fun h => safe_stacktop (by omega) fun _ _ => safe_popstack h
    (safe_last (safe_pushBack (length_hashValue _ _ _) safe_done))

theorem safe_codeSeparator : Safe n codeSeparator fun _ => Small :=
  safe_last (safe_modify (fun _ hm => hm) safe_done)

theorem safe_checkSigOp (crypto : Crypto) (checker : BaseSignatureChecker) (flags : Flags)
    (opcode : Opcode) : Safe n (checkSigOp crypto checker flags opcode) fun _ => Small := by
  refine safe_require fun h => safe_stacktop (by omega) fun vchSig _ => ?_
  refine safe_stacktop (by omega) fun vchPubKey _ => ?_
  refine (safe_checkSignatureEncoding crypto flags vchSig).bind fun _ _ => ?_
  refine (safe_checkPubKeyEncoding flags vchPubKey).bind fun _ _ => safe_get fun m _ => ?_
  refine (safe_checkSig checker flags vchSig vchPubKey _).bind fun _ _ => safe_failIf fun _ => ?_
  exact safe_popstack (by omega) (safe_popstack (by omega) safe_pushResult)

/-! ### Signatures of several keys -/

section

variable {β : Type} {Q : β → Machine → Prop} (crypto : Crypto) (checker : BaseSignatureChecker)
  (flags : Flags)

/-- The signatures from `isig` on are on the stack. -/
theorem safe_dropSignatures (k : ℕ) (isig : ℤ) (scriptCode : CScript) (hlow : 1 ≤ isig)
    (hhigh : isig + k ≤ n + 1) :
    Safe n (dropSignatures flags k isig scriptCode) fun _ m => At n m ∧ True := by
  induction k generalizing isig scriptCode with
  | zero => exact safe_pure fun m hm => ⟨hm, trivial⟩
  | succ k ih =>
    refine safe_stacktop (by omega) fun _ _ => ?_
    exact ih _ _ (by omega) (by push_cast at hhigh; omega)

/-- In each round there are no more signatures left than keys, and both are on the stack. -/
theorem safe_matchSignatures (scriptCode : CScript) (fuel : ℕ) (isig ikey nSigs nKeys : ℤ)
    (hfuel : nKeys ≤ fuel) (hcount : 0 ≤ nSigs ∧ nSigs ≤ nKeys)
    (hsig : 1 ≤ isig ∧ isig + nSigs ≤ n + 1) (hkey : 1 ≤ ikey ∧ ikey + nKeys ≤ n + 1) :
    Safe n (matchSignatures crypto checker flags scriptCode fuel isig ikey nSigs nKeys)
      fun _ m => At n m ∧ True := by
  induction fuel generalizing isig ikey nSigs nKeys with
  | zero =>
    exact safe_haltIf (by push_cast at hfuel; omega) (safe_pure fun m hm => ⟨hm, trivial⟩)
  | succ fuel ih =>
    refine sat_ite (fun hpos => ?_) fun _ => safe_pure fun m hm => ⟨hm, trivial⟩
    refine safe_stacktop (by omega) fun vchSig _ => safe_stacktop (by omega) fun vchPubKey _ => ?_
    refine (safe_checkSignatureEncoding crypto flags vchSig).bind fun _ _ => ?_
    refine (safe_checkPubKeyEncoding flags vchPubKey).bind fun _ _ => ?_
    refine (safe_checkSig checker flags vchSig vchPubKey scriptCode).bind fun fOk _ => ?_
    refine sat_ite (fun _ => safe_pure fun m hm => ⟨hm, trivial⟩) fun hleft => ?_
    push_cast at hfuel
    cases fOk with
    | false =>
      simp only [Bool.false_eq_true, if_false] at hleft ⊢
      exact ih _ _ _ _ (by omega) (by omega) hsig (by omega)
    | true =>
      simp only [if_true] at hleft ⊢
      exact ih _ _ _ _ (by omega) (by omega) (by omega) (by omega)

/-- The `k` arguments are on the stack. -/
theorem safe_dropArguments (fSuccess : Bool) (k : ℕ) (ikey2 : ℤ) (hk : k ≤ n) {f : Unit → Prog β}
    (h : Safe (n - k) (f ()) Q) : Safe n (dropArguments flags fSuccess k ikey2 >>= f) Q := by
  induction k generalizing n ikey2 with
  | zero => exact h
  | succ k ih =>
    have hrest : Safe n (popstack >>= fun _ => dropArguments flags fSuccess k
        (if ikey2 > 0 then ikey2 - 1 else ikey2) >>= f) Q := by
      refine safe_popstack (by omega) (ih _ (by omega) ?_)
      rwa [Nat.sub_sub, Nat.add_comm 1 k]
    rw [dropArguments]
    simp only [bind_assoc]
    refine safe_doIf (fun _ => ?_) fun _ => hrest
    simp only [bind_assoc]
    exact safe_stacktop (by omega) fun _ _ => safe_failIf fun _ => hrest

theorem safe_readKeysCount (hn : n ≤ 1000) :
    Safe n (readKeysCount flags) fun nKeys m => At n m ∧ 0 ≤ nKeys ∧ nKeys ≤ 20 := by
  refine safe_intSize (by omega) (safe_failIf fun h => safe_stacktop (by omega) fun _ _ => ?_)
  refine safe_defaultNum fun bn hbn => ?_
  rw [getint_of_range hbn]
  refine safe_failIf fun hKeys => safe_modify (k := n) (fun _ hm => hm) ?_
  exact safe_get fun _ _ => safe_failIf fun _ => safe_pure fun m hm => ⟨hm, by omega⟩

theorem safe_readSigsCount {nKeys : ℤ} (hn : n ≤ 1000) (hKeys : 0 ≤ nKeys) :
    Safe n (readSigsCount flags nKeys) fun nSigs m =>
      At n m ∧ (0 ≤ nSigs ∧ nSigs ≤ nKeys) ∧ 3 + nKeys + nSigs ≤ n := by
  refine safe_intSize (by omega) (safe_failIf fun h => safe_stacktop (by omega) fun _ _ => ?_)
  refine safe_defaultNum fun bn hbn => ?_
  rw [getint_of_range hbn]
  refine safe_failIf fun hSigs => safe_intSize (by omega) (safe_failIf fun h => ?_)
  exact safe_pure fun m hm => ⟨hm, by omega, by omega⟩

theorem safe_checkDummy : Safe n (checkDummy flags) fun _ m => At n m ∧ 1 ≤ n := by
  refine safe_require fun h => sat_doIf (fun _ => ?_) fun _ m hm => ⟨hm, h⟩
  refine safe_stacktop (by omega) fun _ _ => ?_
  exact safe_last (safe_failIf fun _ => safe_pure fun m hm => ⟨hm, h⟩)

/-- **Signatures of several keys.**  The counts that come off the stack are compared with its
depth before they are used. -/
theorem safe_checkMultiSig (opcode : Opcode) (hn : n ≤ 1000) :
    Safe n (checkMultiSig crypto checker flags opcode) fun _ => Small := by
  refine (safe_readKeysCount flags hn).bind fun nKeys hKeys => ?_
  refine (safe_readSigsCount flags hn hKeys.1).bind fun nSigs hSigs => ?_
  have hmatch : Safe n (matchAll crypto checker flags nKeys nSigs) fun _ m => At n m ∧ True := by
    refine safe_get fun m _ => ?_
    refine (safe_dropSignatures flags _ _ _ (by omega) (by omega)).bind fun scriptCode _ => ?_
    exact safe_matchSignatures crypto checker flags scriptCode _ _ _ _ _ (by omega) (by omega)
      (by omega) (by omega)
  refine hmatch.bind fun fSuccess _ => safe_dropArguments flags fSuccess _ _ (by omega) ?_
  exact (safe_checkDummy flags).bind fun _ hone => safe_popstack hone safe_pushResult

end

/-! ### Byte strings -/

theorem safe_cat : Safe n cat fun _ => Small := by
  refine safe_require fun h => safe_stacktop (by omega) fun vch1 _ => ?_
  refine safe_stacktop (by omega) fun vch2 _ => safe_failIf fun hlen => ?_
  refine safe_setStacktop (by omega) ?_ (safe_last (safe_popstack (by omega) safe_done))
  rw [List.length_append]
  omega

theorem safe_split (flags : Flags) : Safe n (split flags) fun _ => Small := by
  refine safe_require fun h => safe_stacktop (by omega) fun data hdata => ?_
  refine safe_stacktop (by omega) fun _ _ => safe_defaultNum fun bn _ => safe_failIf fun _ => ?_
  refine safe_setStacktop (by omega) ?_ (safe_last (safe_setStacktop (by omega) ?_ safe_done))
  · rw [List.length_take]
    exact le_trans (min_le_right _ _) hdata
  · rw [List.length_drop]
    omega

theorem safe_bin2num : Safe n bin2num fun _ => Small := by
  refine safe_require fun h => safe_stacktop (by omega) fun vch hvch => ?_
  refine safe_setStacktop (by omega) ?_ (safe_last (safe_failIf fun _ => safe_done))
  exact le_trans (CScriptNum.length_createSmallestFormat_le vch) hvch

/-- A number that is padded has the length that was asked for. -/
theorem length_pad {rawnum : Bytes} {size : ℕ} (h : rawnum.length < size) :
    (pad rawnum size).length = size := by
  unfold pad
  by_cases hnil : rawnum = []
  · rw [hnil] at h ⊢
    simp at h ⊢
    omega
  · simp only [if_neg hnil, List.length_append, List.length_replicate, length_setBack _ hnil,
      List.length_singleton]
    omega

theorem safe_num2bin (flags : Flags) : Safe n (num2bin flags) fun _ => Small := by
  refine safe_require fun h => safe_stacktop (by omega) fun _ _ => safe_defaultNum fun bn _ => ?_
  refine safe_failIf fun hsize => safe_popstack (by omega) ?_
  refine safe_stacktop (by omega) fun vch hvch => ?_
  have hraw := le_trans (CScriptNum.length_createSmallestFormat_le vch) hvch
  refine safe_setStacktop (by omega) hraw (safe_failIf fun hfits => ?_)
  refine sat_doIf (fun hne => ?_) fun _ _ hm => hm.2
  refine safe_last (safe_setStacktop (by omega) ?_ safe_done)
  rw [length_pad (by omega)]
  omega

end

/-! ## Evaluations -/

section

variable {n : ℕ} (crypto : Crypto) (checker : BaseSignatureChecker) (flags : Flags)

/-- **One case of the `switch`.** -/
theorem exec_safe (fExec : Bool) (opcode : Opcode) (hn : n ≤ 1000) :
    Safe n (exec crypto checker flags fExec opcode (caseOf opcode)) fun _ => Small := by
  cases hcase : caseOf opcode with
  | pushNumber => exact safe_pushNumber opcode
  | nop => exact safe_done
  | checkLockTimeVerify => exact safe_checkLockTimeVerify checker flags
  | checkSequenceVerify => exact safe_checkSequenceVerify checker flags
  | upgradableNop => exact safe_notEnabled flags
  | ifOrNotIf => exact safe_ifOrNotIf opcode fExec
  | elseBranch => exact safe_elseBranch
  | endIf => exact safe_endIf
  | verify => exact safe_verify
  | opReturn => exact safe_error _
  | toAltStack => exact safe_toAltStack
  | fromAltStack => exact safe_fromAltStack
  | twoDrop => exact safe_twoDrop
  | twoDup => exact safe_twoDup
  | threeDup => exact safe_threeDup
  | twoOver => exact safe_twoOver
  | twoRot => exact safe_twoRot
  | twoSwap => exact safe_twoSwap
  | ifDup => exact safe_ifDup
  | depth => exact safe_depth
  | drop => exact safe_drop
  | dup => exact safe_dup
  | nip => exact safe_nip
  | overOp => exact safe_overOp
  | pickOrRoll => exact safe_pickOrRoll flags opcode hn
  | rot => exact safe_rot
  | swap => exact safe_swap
  | tuck => exact safe_tuck
  | size => exact safe_size
  | bitwise => exact safe_bitwise opcode
  | equal => exact safe_equal opcode
  | unary => exact safe_unary flags hcase
  | binary => exact safe_binary flags hcase
  | within => exact safe_within flags
  | hash => exact safe_hash crypto opcode
  | codeSeparator => exact safe_codeSeparator
  | checkSig => exact safe_checkSigOp crypto checker flags opcode
  | checkMultiSig => exact safe_checkMultiSig crypto checker flags opcode hn
  | cat => exact safe_cat
  | split => exact safe_split flags
  | bin2num => exact safe_bin2num
  | num2bin => exact safe_num2bin flags
  | default => exact safe_error _

/-- No element is too long, and there are not too many of them. -/
def Bounded (m : Machine) : Prop := Small m ∧ m.stack.length + m.altstack.length ≤ 1000

theorem safe_execInstruction (fExec : Bool) (opcode : Opcode) {vch : Bytes} (hn : n ≤ 1000)
    (hvch : vch.length ≤ maxScriptElementSize) :
    Safe n (execInstruction crypto checker flags fExec opcode vch) fun _ => Small := by
  refine sat_ite (fun _ => ?_) fun _ => sat_ite (fun _ => ?_) fun _ => safe_done
  · exact safe_failIf fun _ => safe_last (safe_pushBack hvch safe_done)
  · exact exec_safe crypto checker flags fExec opcode hn

theorem sat_limitStackSize : Sat Small limitStackSize (fun _ => Bounded) Clean := by
  refine ⟨fun m hm => ?_⟩
  unfold limitStackSize
  rw [bind_apply_ok (get_apply m)]
  by_cases hsize : m.stack.length + m.altstack.length > 1000
  · rw [failIf_apply_of_pos hsize]
    exact ⟨.inl ⟨_, rfl⟩, hm⟩
  · rw [failIf_apply_of_neg hsize]
    exact ⟨hm, by omega⟩

theorem safe_stepWith (fExec : Bool) (opcode : Opcode) (vch : Bytes) (hn : n ≤ 1000) :
    Safe n (stepWith crypto checker flags fExec opcode vch) fun _ => Bounded := by
  have hrest : vch.length ≤ maxScriptElementSize → Safe n (do
      failIf (IsDisabled opcode) .disabledOpcode
      execInstruction crypto checker flags fExec opcode vch
      limitStackSize) fun _ => Bounded := fun hvch =>
    safe_failIf fun _ => Sat.bind (safe_execInstruction crypto checker flags fExec opcode hn hvch)
      fun _ => sat_limitStackSize
  refine safe_failIf fun hvch => safe_doIf (fun _ => ?_) fun _ => hrest (by omega)
  simp only [bind_assoc]
  refine safe_modify (k := n) (fun _ hm => hm) (safe_get fun _ _ => safe_failIf fun _ => ?_)
  exact hrest (by omega)

/-- **One round of the loop.** -/
theorem step_safe : Sat Bounded (step crypto checker flags) (fun _ => Bounded) Clean := by
  refine ⟨fun m hm => ?_⟩
  cases hget : CScript.getOp m.pc with
  | none =>
    rw [step_of_getOp_eq_none flags crypto checker hget]
    exact ⟨.inl ⟨_, rfl⟩, hm.1⟩
  | some r =>
    obtain ⟨opcode, vch, pc⟩ := r
    rw [step_of_getOp flags opcode crypto checker hget]
    have hlen : m.stack.length ≤ 1000 := by
      have := hm.2
      omega
    exact (safe_stepWith crypto checker flags m.fExec opcode vch hlen).run { m with pc := pc }
      ⟨rfl, hm.1⟩

/-- **The whole loop.**  It ends within one round per byte. -/
theorem evalLoop_safe (fuel : ℕ) : Sat (fun m => Bounded m ∧ m.pc.length ≤ fuel)
    (evalLoop crypto checker flags fuel) (fun _ => Bounded) Clean := by
  induction fuel with
  | zero =>
    refine ⟨fun m hm => ?_⟩
    have hnil : ¬ m.pc ≠ [] := by
      rw [not_not]
      exact List.length_eq_zero_iff.mp (Nat.le_zero.mp hm.2)
    unfold evalLoop
    rw [bind_apply_ok (get_apply m), haltIf_apply_of_neg hnil]
    exact hm.1
  | succ fuel ih =>
    refine ⟨fun m hm => ?_⟩
    unfold evalLoop
    rw [bind_apply_ok (get_apply m)]
    split_ifs with hnil
    · exact hm.1
    · cases hstep : step crypto checker flags m with
      | ok a m' =>
        rw [bind_apply_ok hstep]
        have hpc := length_pc_step flags crypto checker hstep
        exact ih.run m' ⟨(step_safe crypto checker flags).ok hm.1 hstep, by omega⟩
      | error h m' =>
        rw [bind_apply_error hstep]
        exact (step_safe crypto checker flags).error hm.1 hstep

/-- A stack that may be given to `EvalScript`. -/
def Ready (m : Machine) : Prop :=
  (∀ v ∈ m.stack, v.length ≤ maxScriptElementSize) ∧ m.stack.length ≤ 1000

theorem bounded_start (script : CScript) {m : Machine} (hm : Ready m) :
    Bounded (start script m) := by
  refine ⟨⟨hm.1, fun v hv => ?_⟩, ?_⟩
  · exact absurd hv List.not_mem_nil
  · show m.stack.length + 0 ≤ 1000
    have := hm.2
    omega

/-- **A whole evaluation.**  What `EvalScript` returns is an error of its own. -/
theorem evalScript_safe (script : CScript) :
    Sat Ready (evalScript crypto checker flags script) (fun _ => Bounded)
      fun h _ => ∃ e, h = .error e := by
  refine ⟨fun m hm => ?_⟩
  have hstart := bounded_start script hm
  have hloop := (evalLoop_safe crypto checker flags script.length).run (start script m)
    ⟨hstart, le_rfl⟩
  by_cases hsize : script.length > 10000
  · rw [evalScript_of_large flags crypto checker m hsize]
    exact ⟨_, rfl⟩
  cases hrun : evalLoop crypto checker flags script.length (start script m) with
  | ok a m' =>
    rw [hrun] at hloop
    rw [evalScript_of_ok flags crypto checker hsize hrun]
    by_cases hopen : m'.vfExec ≠ []
    · rw [failIf_apply_of_pos hopen]
      exact ⟨_, rfl⟩
    · rw [failIf_apply_of_neg hopen]
      exact hloop
  | error h m' =>
    rw [hrun] at hloop
    rw [evalScript_of_error flags crypto checker hsize hrun]
    obtain ⟨⟨e, rfl⟩ | ⟨what, rfl⟩, -⟩ := hloop
    · exact ⟨e, rfl⟩
    · exact ⟨.unknownError, rfl⟩

/-! ## Script hashes -/

/-- A script that pays to a script hash fails on an empty stack: its first instruction hashes the
top. -/
theorem evalScript_p2sh_of_nil {script : CScript} (h : CScript.isPayToScriptHash script)
    {m : Machine} (hm : m.stack = []) :
    ∃ e m', evalScript crypto checker flags script m = .error (.error e) m' := by
  simp only [CScript.isPayToScriptHash, Bool.and_eq_true, beq_iff_eq] at h
  obtain ⟨⟨⟨hlen, hfirst⟩, -⟩, -⟩ := h
  obtain ⟨rest, rfl⟩ : ∃ rest, script = opHash160 :: rest := by
    cases script with
    | nil => cases hlen
    | cons b rest => exact ⟨rest, by rw [← hfirst]; rfl⟩
  have hpc : (start (opHash160 :: rest) m).pc = opHash160 :: rest := rfl
  have hget : CScript.getOp (start (opHash160 :: rest) m).pc = some (opHash160, [], rest) := by
    rw [List.length_cons] at hlen
    rw [hpc]
    exact CScript.getOp_of_gt (by decide) (by omega)
  -- the round reads `OP_HASH160` and finds nothing to hash
  have hhash : ∀ m' : Machine, m'.stack = [] →
      hash crypto opHash160 m' = .error (.error .invalidStackOperation) m' := by
    intro m' hnil
    have hshort : m'.stack.length < 1 := by
      rw [hnil]
      exact Nat.one_pos
    unfold hash require
    exact bind_apply_error ((bind_apply_ok (get_apply m')).trans (failIf_apply_of_pos hshort m'))
  obtain ⟨m', hstep⟩ : ∃ m', step crypto checker flags (start (opHash160 :: rest) m)
      = .error (.error .invalidStackOperation) m' := by
    rw [step_of_getOp flags opHash160 crypto checker hget]
    refine ⟨{ start (opHash160 :: rest) m with pc := rest, nOpCount := 1 }, ?_⟩
    have hlong : ¬ ([] : Bytes).length > maxScriptElementSize := by decide
    have hcount : countOp opHash160 { start (opHash160 :: rest) m with pc := rest }
        = .ok () { start (opHash160 :: rest) m with pc := rest, nOpCount := 1 } := rfl
    have hable : ¬ IsDisabled opHash160 := by decide
    unfold stepWith
    rw [bind_apply_ok (failIf_apply_of_neg hlong _), bind_apply_ok hcount,
      bind_apply_ok (failIf_apply_of_neg hable _)]
    exact bind_apply_error (hhash _ hm)
  have hloop : evalLoop crypto checker flags (opHash160 :: rest).length
      (start (opHash160 :: rest) m) = .error (.error .invalidStackOperation) m' := by
    rw [List.length_cons]
    unfold evalLoop
    rw [bind_apply_ok (get_apply _), if_neg (by rw [hpc]; exact List.cons_ne_nil _ _)]
    exact bind_apply_error hstep
  refine ⟨.invalidStackOperation, m', ?_⟩
  rw [evalScript_of_error flags crypto checker (by rw [hlen]; decide) hloop]
  rfl

/-- The halts of `VerifyScript`: an error, or flags that were not meant to be used together. -/
def Expected (h : Halt) (_ : Machine) : Prop :=
  (∃ e, h = .error e) ∨ h = .assertion "(flags & SCRIPT_VERIFY_P2SH) != 0"

theorem sat_evalScript (script : CScript) :
    Sat Ready (evalScript crypto checker flags script) (fun _ => Ready) Expected :=
  (evalScript_safe crypto checker flags script).mono (fun _ h => h)
    (fun _ _ h => ⟨h.1.1, le_trans (Nat.le_add_right _ _) h.2⟩) fun _ _ h => .inl h

theorem sat_requireTrue {P : Machine → Prop} : Sat P requireTrue (fun _ => P) Expected := by
  have herror : ∀ e m, P m → Expected (.error e) m := fun e _ _ => .inl ⟨e, rfl⟩
  refine sat_get.bind fun m => ?_
  refine Sat.mono (P := P) ?_ (fun _ h => h.1) (fun _ _ h => h) fun _ _ h => h
  refine (sat_haltIf (herror _)).bind fun _ => sat_of_and fun _ => ?_
  exact (sat_haltIf (herror _)).mono (fun _ h => h) (fun _ _ h => h.1) fun _ _ h => h

theorem sat_popstack : Sat (fun m => Ready m ∧ m.stack ≠ []) popstack (fun _ => Ready)
    Expected := by
  refine ⟨fun m hm => ?_⟩
  have hrun : popstack m = .ok () { m with stack := m.stack.tail } := by
    unfold popstack
    rw [bind_apply_ok (get_apply m), bind_apply_ok (haltIf_apply_of_neg hm.2 m)]
    rfl
  rw [hrun]
  refine ⟨fun v hv => hm.1.1 v (List.mem_of_mem_tail hv), ?_⟩
  have hlen := hm.1.2
  show m.stack.tail.length ≤ 1000
  rw [List.length_tail]
  omega

/-- The part of `VerifyScript` for a script hash, from a stack that is not empty. -/
theorem sat_verifyScriptHash (scriptSig : CScript) {stackCopy : List Bytes} (hne : stackCopy ≠ [])
    (hlen : stackCopy.length ≤ 1000) (hsmall : ∀ v ∈ stackCopy, v.length ≤ maxScriptElementSize) :
    Sat Ready (verifyScriptHash crypto checker flags scriptSig stackCopy) (fun _ => Ready)
      Expected := by
  refine (sat_haltIf fun _ _ => .inl ⟨_, rfl⟩).bind fun _ => sat_of_and fun _ => ?_
  refine Sat.bind (Q := fun _ m => Ready m ∧ m.stack ≠ []) ?_ fun _ => ?_
  · exact sat_modify fun _ _ => ⟨⟨hsmall, hlen⟩, hne⟩
  refine (sat_haltIf_of_neg hne).bind fun _ => ?_
  refine sat_popstack.bind fun _ => ?_
  exact (sat_evalScript crypto checker flags _).bind fun _ => sat_requireTrue

/-- Evaluating a script that pays to a script hash needs a stack that is not empty. -/
theorem sat_evalScriptPubKey (scriptPubKey : CScript) (stackCopy : List Bytes) :
    Sat (fun m => Ready m ∧ stackCopy = m.stack) (evalScript crypto checker flags scriptPubKey)
      (fun _ m => Ready m ∧ (CScript.isPayToScriptHash scriptPubKey → stackCopy ≠ []))
      Expected := by
  refine ⟨fun m hm => ?_⟩
  have hrun := (sat_evalScript crypto checker flags scriptPubKey).run m hm.1
  cases hend : evalScript crypto checker flags scriptPubKey m with
  | error h m' =>
    rw [hend] at hrun
    exact hrun
  | ok a m' =>
    rw [hend] at hrun
    refine ⟨hrun, fun hp2sh hnil => ?_⟩
    obtain ⟨e, m₁, herror⟩ := evalScript_p2sh_of_nil crypto checker flags hp2sh
      (hm.2.symm.trans hnil)
    rw [hend] at herror
    cases herror

/-- **Whole verifications.**  The stack that `VerifyScript` restores is never empty, so that the
only assertion that may fail is the one about flags that were not meant to be used together. -/
theorem verifyWith_safe (scriptSig scriptPubKey : CScript) :
    Sat (fun _ => True) (verifyWith crypto checker flags scriptSig scriptPubKey) (fun _ _ => True)
      Expected := by
  refine (sat_haltIf fun _ _ => .inl ⟨_, rfl⟩).bind fun _ => sat_of_and fun _ => ?_
  refine Sat.bind (Q := fun _ => Ready) ?_ fun _ => ?_
  · exact sat_modify fun _ _ => ⟨fun v hv => absurd hv List.not_mem_nil, Nat.zero_le _⟩
  refine (sat_evalScript crypto checker flags scriptSig).bind fun _ => ?_
  refine Sat.bind (Q := fun (m₀ : Machine) m => Ready m₀ ∧ Ready m ∧ m₀.stack = m.stack) ?_
    fun m₀ => ?_
  · exact ⟨fun m hm => ⟨hm, hm, rfl⟩⟩
  by_cases hready : Ready m₀
  · refine Sat.bind (Q := fun _ m => Ready m ∧
      (CScript.isPayToScriptHash scriptPubKey → m₀.stack ≠ [])) ?_ fun _ => ?_
    · exact (sat_evalScriptPubKey crypto checker flags scriptPubKey m₀.stack).mono
        (fun _ h => h.2) (fun _ _ h => h) fun _ _ h => h
    refine sat_requireTrue.bind fun _ => sat_of_and fun hne => ?_
    refine Sat.bind (Q := fun _ => Ready) (sat_doIf (fun hc => ?_) fun _ _ h => h) fun _ => ?_
    · exact sat_verifyScriptHash crypto checker flags scriptSig (hne hc.2) hready.2 hready.1
    · refine sat_doIf (fun _ => ?_) fun _ _ _ => trivial
      refine (sat_haltIf fun _ _ => .inr rfl).bind fun _ => sat_of_and fun _ => ?_
      refine sat_get.bind fun _ => ?_
      exact (sat_haltIf fun _ _ => .inl ⟨_, rfl⟩).mono (fun _ h => h) (fun _ _ _ => trivial)
        fun _ _ h => h
  · exact ⟨fun m hm => absurd hm.1 hready⟩

/-- `m'` comes after `m` in the loop of `EvalScript`. -/
def Next (m m' : Machine) : Prop := m.pc ≠ [] ∧ step crypto checker flags m = .ok () m'

/-- What holds of an evaluation of `script` on `stack`. -/
structure Robust (script : CScript) (stack : List Bytes) : Prop where
  /-- Before each round, no element of the stacks is too long. -/
  small (m : Machine) (h : Relation.ReflTransGen (Next crypto checker flags)
    (start script { stack := stack }) m) : Small m
  /-- What ends a round early is an error, or a number that does not decode. -/
  clean (m m' : Machine) (h : Halt) (hm : Relation.ReflTransGen (Next crypto checker flags)
    (start script { stack := stack }) m) (hstep : step crypto checker flags m = .error h m') :
    Clean h m'
  /-- The loop ends, with few enough elements or with such a halt. -/
  loop : Ends (fun _ => Bounded) Clean
    (evalLoop crypto checker flags script.length (start script { stack := stack }))
  /-- `EvalScript` returns, with few enough elements or with an error. -/
  returns : Ends (fun _ => Bounded) (fun h _ => ∃ e, h = .error e)
    (evalScript crypto checker flags script { stack := stack })

/-- **No script breaks the interpreter.**  On a stack of at most 1000 elements of at most 520
bytes, every script is evaluated to its end: no index is out of range, no assertion fails, nothing
is undefined, and only numbers that do not decode are thrown.  So `VerifyScript` never finds the
stack empty that it restores. -/
theorem evalScript_robust (script : CScript) (stack : List Bytes) (hlen : stack.length ≤ 1000)
    (hsmall : ∀ v ∈ stack, v.length ≤ maxScriptElementSize) :
    Robust crypto checker flags script stack ∧
      ∀ scriptSig scriptPubKey h m,
        verifyScript crypto checker flags scriptSig scriptPubKey {} = .error h m →
        h ≠ .assertion "!stack.empty()" := by
  have hready : Ready { stack := stack } := ⟨hsmall, hlen⟩
  have hstart := bounded_start script hready
  have hbounded : ∀ m, Relation.ReflTransGen (Next crypto checker flags)
      (start script { stack := stack }) m → Bounded m := by
    intro m hm
    induction hm with
    | refl => exact hstart
    | tail _ hnext ih => exact (step_safe crypto checker flags).ok ih hnext.2
  refine ⟨⟨fun m hm => (hbounded m hm).1, fun m m' h hm hstep => ?_, ?_, ?_⟩, ?_⟩
  · exact (step_safe crypto checker flags).error (hbounded m hm) hstep
  · exact (evalLoop_safe crypto checker flags script.length).run _ ⟨hstart, le_rfl⟩
  · exact (evalScript_safe crypto checker flags script).run _ hready
  · intro scriptSig scriptPubKey h m hrun
    rcases (verifyWith_safe crypto checker (withStrictEnc flags) scriptSig scriptPubKey).error
      trivial hrun with ⟨e, rfl⟩ | rfl
    · exact Halt.noConfusion
    · decide

end

/-- Hashes that are all zero. -/
def nullCrypto : Crypto where
  ripemd160 _ := Vector.replicate 20 0
  sha1 _ := Vector.replicate 20 0
  sha256 _ := Vector.replicate 32 0
  hash160 _ := Vector.replicate 20 0
  hash256 _ := Vector.replicate 32 0
  checkLowS _ := true

/-- `BaseSignatureChecker` itself, which refuses everything. -/
def baseChecker : BaseSignatureChecker where
  checkSig _ _ _ _ := false
  checkLockTime _ := false
  checkSequence _ := false

theorem evalScript_robust_pick :
    Robust nullCrypto baseChecker 0 [op1, opPick, opCat] [[1], [2, 3]] :=
  (evalScript_robust nullCrypto baseChecker 0 [op1, opPick, opCat] [[1], [2, 3]] (by decide)
    (by decide)).1

end Script
