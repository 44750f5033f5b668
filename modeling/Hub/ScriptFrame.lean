/-
# What an operation leaves alone

No operation of a script moves the place where instructions are read, and only the operations
that check signatures call `CheckSig`: `OP_CHECKSIG` once, `OP_CHECKMULTISIG` at most as often
as there are keys.
-/
import Hub.Interpreter

open ByteCodec Opcode Bytes Halting

namespace Script

theorem failIf_apply_of_pos {c : Prop} [Decidable c] {e : ScriptError} (h : c) (m : Machine) :
    failIf c e m = .error (.error e) m := haltIf_apply_of_pos h m

theorem failIf_apply_of_neg {c : Prop} [Decidable c] {e : ScriptError} (h : ¬ c) (m : Machine) :
    failIf c e m = .ok () m := haltIf_apply_of_neg h m

/-- From `m`, the program does not move `pc`, and calls `CheckSig` at most `c` times. -/
def Calls {α : Type} (c : ℕ) (x : Prog α) (m : Machine) : Prop :=
  (final (x m)).pc = m.pc ∧ (final (x m)).checkSigs ≤ m.checkSigs + c

/-- From every machine, the program does not move `pc`, and calls `CheckSig` at most `c`
times. -/
structure Counted {α : Type} (c : ℕ) (x : Prog α) : Prop where
  run (m : Machine) : Calls c x m

/-- The program does not move `pc`, and does not call `CheckSig`. -/
abbrev Quiet {α : Type} (x : Prog α) : Prop := Counted 0 x

section

variable {α β : Type} {c d : ℕ}

theorem Counted.mono {x : Prog α} (h : Counted c x) (hcd : c ≤ d) : Counted d x :=
  ⟨fun m => ⟨(h.run m).1, le_trans (h.run m).2 (by omega)⟩⟩

theorem quiet_pure (a : α) : Quiet (pure a : Prog α) := ⟨fun _ => ⟨rfl, le_rfl⟩⟩

theorem quiet_throw (h : Halt) : Quiet (throw h : Prog α) := ⟨fun _ => ⟨rfl, le_rfl⟩⟩

theorem quiet_get : Quiet (get : Prog Machine) := ⟨fun _ => ⟨rfl, le_rfl⟩⟩

theorem quiet_modify {g : Machine → Machine}
    (h : ∀ m, (g m).pc = m.pc ∧ (g m).checkSigs = m.checkSigs) : Quiet (modify g : Prog Unit) :=
  ⟨fun m => ⟨(h m).1, (h m).2.le⟩⟩

/-- **One thing after the other.** -/
theorem calls_bind {x : Prog α} {f : α → Prog β} {m : Machine} (hx : Calls c x m)
    (hf : ∀ a m', x m = .ok a m' → Calls d (f a) m') : Calls (c + d) (x >>= f) m := by
  unfold Calls at hx ⊢
  cases hrun : x m with
  | ok a m' =>
    rw [hrun] at hx
    rw [bind_apply_ok hrun]
    have hx' : m'.pc = m.pc ∧ m'.checkSigs ≤ m.checkSigs + c := hx
    obtain ⟨hpc, hcalls⟩ := hf a m' hrun
    exact ⟨hpc.trans hx'.1, by omega⟩
  | error e m' =>
    rw [hrun] at hx
    rw [bind_apply_error hrun]
    exact ⟨hx.1, le_trans hx.2 (by omega)⟩

theorem Counted.bind {x : Prog α} {f : α → Prog β} (hx : Counted c x)
    (hf : ∀ a, Counted d (f a)) : Counted (c + d) (x >>= f) :=
  ⟨fun m => calls_bind (hx.run m) fun a m' _ => (hf a).run m'⟩

/-- A quiet part, and what follows it. -/
theorem Quiet.calls_bind {x : Prog α} {f : α → Prog β} {m : Machine} (hx : Quiet x)
    (hf : ∀ a m', x m = .ok a m' → Calls d (f a) m') : Calls d (x >>= f) m := by
  have h := Script.calls_bind (hx.run m) hf
  rwa [Nat.zero_add] at h

theorem Counted.seq {x : Prog α} {f : α → Prog β} (hx : Quiet x) (hf : ∀ a, Counted d (f a)) :
    Counted d (x >>= f) := by
  have h := hx.bind hf
  rwa [Nat.zero_add] at h

theorem counted_ite {p : Prop} [Decidable p] {x y : Prog α} (hx : Counted c x)
    (hy : Counted c y) : Counted c (if p then x else y) := by
  split_ifs
  · exact hx
  · exact hy

theorem quiet_doIf {p : Prop} [Decidable p] {x : Prog Unit} (hx : Quiet x) : Quiet (doIf p x) :=
  counted_ite hx (quiet_pure ())

theorem quiet_haltIf {p : Prop} [Decidable p] {h : Halt} : Quiet (haltIf p h : Prog Unit) :=
  quiet_doIf (quiet_throw h)

theorem quiet_failIf {p : Prop} [Decidable p] {e : ScriptError} : Quiet (failIf p e) :=
  quiet_haltIf

end

/-! ## The primitives -/

section

variable (flags : Flags) (opcode : Opcode)

theorem quiet_require (k : ℕ) (e : ScriptError) : Quiet (require k e) :=
  quiet_get.seq fun _ => quiet_failIf

theorem quiet_stacktop (i : ℤ) : Quiet (stacktop i) := by
  refine quiet_get.seq fun m => ?_
  split
  · exact quiet_pure _
  · exact quiet_throw _

theorem quiet_altstacktop (i : ℤ) : Quiet (altstacktop i) := by
  refine quiet_get.seq fun m => ?_
  split
  · exact quiet_pure _
  · exact quiet_throw _

theorem quiet_setStacktop (i : ℤ) (vch : Bytes) : Quiet (setStacktop i vch) :=
  (quiet_stacktop i).seq fun _ => quiet_modify fun _ => ⟨rfl, rfl⟩

theorem quiet_swapStacktop (i j : ℤ) : Quiet (swapStacktop i j) :=
  (quiet_stacktop i).seq fun _ => (quiet_stacktop j).seq fun _ =>
    (quiet_setStacktop i _).seq fun _ => quiet_setStacktop j _

theorem quiet_pushBack (vch : Bytes) : Quiet (pushBack vch) := quiet_modify fun _ => ⟨rfl, rfl⟩

theorem quiet_pushBackAlt (vch : Bytes) : Quiet (pushBackAlt vch) :=
  quiet_modify fun _ => ⟨rfl, rfl⟩

theorem quiet_popstack : Quiet popstack :=
  quiet_get.seq fun _ => quiet_haltIf.seq fun _ => quiet_modify fun _ => ⟨rfl, rfl⟩

theorem quiet_popAltstack : Quiet popAltstack :=
  quiet_get.seq fun _ => quiet_haltIf.seq fun _ => quiet_modify fun _ => ⟨rfl, rfl⟩

theorem quiet_erase (a b : ℕ) : Quiet (erase a b) :=
  quiet_get.seq fun _ => quiet_haltIf.seq fun _ => quiet_modify fun _ => ⟨rfl, rfl⟩

theorem quiet_insert (a : ℕ) (vch : Bytes) : Quiet (insert a vch) :=
  quiet_get.seq fun _ => quiet_haltIf.seq fun _ => quiet_modify fun _ => ⟨rfl, rfl⟩

theorem quiet_intSize : Quiet intSize := quiet_get.seq fun _ => quiet_pure _

theorem quiet_int64 (n : ℤ) : Quiet (int64 n) := quiet_haltIf.seq fun _ => quiet_pure _

theorem quiet_scriptNum (vch : Bytes) (k : ℕ) : Quiet (scriptNum flags vch k) :=
  quiet_haltIf.seq fun _ => quiet_haltIf.seq fun _ => quiet_pure _

theorem quiet_verifyResult (fSuccess : Bool) (e : ScriptError) : Quiet (verifyResult fSuccess e) :=
  quiet_failIf.seq fun _ => quiet_popstack

/-- The inner `switch` of the operations on one number. -/
theorem quiet_unaryValue (bn : CScriptNum) : Quiet (unaryValue opcode bn) := by
  have hneg : Quiet (negate bn) := quiet_haltIf.seq fun _ => quiet_int64 _
  unfold unaryValue
  repeat' apply counted_ite
  · exact quiet_haltIf.seq fun _ => quiet_int64 _
  · exact quiet_haltIf.seq fun _ => quiet_int64 _
  · exact hneg
  · exact hneg
  · exact quiet_pure _
  · exact quiet_pure _
  · exact quiet_pure _
  · exact quiet_throw _

/-- The inner `switch` of the operations on two numbers. -/
theorem quiet_binaryValue (bn1 bn2 : CScriptNum) : Quiet (binaryValue opcode bn1 bn2) := by
  unfold binaryValue
  repeat' apply counted_ite
  · exact quiet_int64 _
  · exact quiet_int64 _
  · exact quiet_failIf.seq fun _ => quiet_haltIf.seq fun _ => quiet_int64 _
  · exact quiet_failIf.seq fun _ => quiet_haltIf.seq fun _ =>
      (quiet_int64 _).seq fun _ => quiet_int64 _
  all_goals first | exact quiet_pure _ | exact quiet_throw _

/-! ## The operations -/

/-- A case of the `switch` that checks no signature is made of parts that do not. -/
theorem exec_quiet (crypto : Crypto) (checker : BaseSignatureChecker) (fExec : Bool) {c : Case}
    (hsig : c ≠ .checkSig) (hmulti : c ≠ .checkMultiSig) :
    Quiet (exec crypto checker flags fExec opcode c) := by
  cases c
  case checkSig => exact absurd rfl hsig
  case checkMultiSig => exact absurd rfl hmulti
  all_goals
    simp only [exec, pushNumber, notEnabled, checkLockTimeVerify, checkSequenceVerify, ifOrNotIf,
      elseBranch, endIf, verify, toAltStack, fromAltStack, twoDrop, twoDup, threeDup, twoOver,
      twoRot, twoSwap, ifDup, depth, drop, dup, nip, overOp, pickOrRoll, rot, swap, tuck, size,
      bitwise, equal, unary, binary, within, hash, codeSeparator, cat, split, bin2num, num2bin]
    repeat' first
      | with_reducible exact quiet_pure _
      | with_reducible exact quiet_throw _
      | with_reducible exact quiet_get
      | with_reducible exact quiet_failIf
      | with_reducible exact quiet_haltIf
      | with_reducible exact quiet_require _ _
      | with_reducible exact quiet_stacktop _
      | with_reducible exact quiet_altstacktop _
      | with_reducible exact quiet_setStacktop _ _
      | with_reducible exact quiet_swapStacktop _ _
      | with_reducible exact quiet_pushBack _
      | with_reducible exact quiet_pushBackAlt _
      | with_reducible exact quiet_popstack
      | with_reducible exact quiet_popAltstack
      | with_reducible exact quiet_erase _ _
      | with_reducible exact quiet_insert _ _
      | with_reducible exact quiet_intSize
      | with_reducible exact quiet_scriptNum _ _ _
      | with_reducible exact quiet_unaryValue _ _
      | with_reducible exact quiet_binaryValue _ _ _
      | with_reducible exact quiet_verifyResult _ _
      | exact quiet_modify fun _ => ⟨rfl, rfl⟩
      | with_reducible refine Counted.seq ?_ fun _ => ?_
      | with_reducible refine quiet_doIf ?_
      | with_reducible refine counted_ite ?_ ?_

/-! ## Signatures -/

variable (crypto : Crypto) (checker : BaseSignatureChecker)

theorem quiet_requireValidEncoding (vchSig : Bytes) : Quiet (requireValidEncoding vchSig) := by
  unfold requireValidEncoding
  split
  · exact quiet_failIf
  · exact quiet_throw _

theorem quiet_checkSignatureEncoding (vchSig : Bytes) :
    Quiet (checkSignatureEncoding crypto flags vchSig) := by
  have hlow : Quiet (isLowDERSignature crypto vchSig) :=
    (quiet_requireValidEncoding vchSig).seq fun _ => quiet_failIf
  have htype : Quiet (checkHashType flags vchSig) :=
    quiet_failIf.seq fun _ => quiet_failIf.seq fun _ => quiet_failIf
  exact quiet_doIf ((quiet_doIf (quiet_requireValidEncoding vchSig)).seq fun _ =>
    (quiet_doIf hlow).seq fun _ => quiet_doIf htype)

theorem quiet_checkPubKeyEncoding (vchPubKey : Bytes) :
    Quiet (checkPubKeyEncoding flags vchPubKey) := quiet_failIf

theorem counted_checkSig (vchSig vchPubKey : Bytes) (scriptCode : CScript) :
    Counted 1 (checkSig checker flags vchSig vchPubKey scriptCode) :=
  ⟨fun _ => ⟨rfl, le_rfl⟩⟩

/-- The end of the operations with a result. -/
theorem quiet_pushResult (fSuccess : Bool) {p : Prop} [Decidable p] (e : ScriptError) :
    Quiet (do pushBack (vchOf fSuccess); doIf p (verifyResult fSuccess e)) :=
  (quiet_pushBack _).seq fun _ => quiet_doIf (quiet_verifyResult _ _)

/-- `OP_CHECKSIG` calls `CheckSig` once. -/
theorem counted_checkSigOp : Counted 1 (checkSigOp crypto checker flags opcode) := by
  refine (quiet_require _ _).seq fun _ => (quiet_stacktop _).seq fun vchSig => ?_
  refine (quiet_stacktop _).seq fun vchPubKey => ?_
  refine (quiet_checkSignatureEncoding flags crypto vchSig).seq fun _ => ?_
  refine (quiet_checkPubKeyEncoding flags vchPubKey).seq fun _ => quiet_get.seq fun m => ?_
  refine (counted_checkSig flags checker vchSig vchPubKey _).bind (d := 0) fun fSuccess => ?_
  exact quiet_failIf.seq fun _ => quiet_popstack.seq fun _ => quiet_popstack.seq fun _ =>
    quiet_pushResult _ _

theorem quiet_dropSignatures (k : ℕ) (isig : ℤ) (scriptCode : CScript) :
    Quiet (dropSignatures flags k isig scriptCode) := by
  induction k generalizing isig scriptCode with
  | zero => exact quiet_pure _
  | succ k ih => exact (quiet_stacktop _).seq fun _ => ih _ _

/-- A round of the loop uses up a key, and calls `CheckSig` once. -/
theorem counted_matchSignatures (scriptCode : CScript) (fuel : ℕ) (isig ikey nSigs nKeys : ℤ) :
    Counted fuel (matchSignatures crypto checker flags scriptCode fuel isig ikey nSigs nKeys) := by
  induction fuel generalizing isig ikey nSigs nKeys with
  | zero => exact quiet_haltIf.seq fun _ => quiet_pure _
  | succ fuel ih =>
    refine counted_ite ?_ ((quiet_pure _).mono (Nat.zero_le _))
    refine (quiet_stacktop _).seq fun vchSig => (quiet_stacktop _).seq fun vchPubKey => ?_
    refine (quiet_checkSignatureEncoding flags crypto vchSig).seq fun _ => ?_
    refine (quiet_checkPubKeyEncoding flags vchPubKey).seq fun _ => ?_
    rw [Nat.add_comm fuel 1]
    refine (counted_checkSig flags checker vchSig vchPubKey _).bind fun fOk => ?_
    exact counted_ite ((quiet_pure _).mono (Nat.zero_le _)) (ih _ _ _ _)

theorem quiet_dropArguments (fSuccess : Bool) (k : ℕ) (ikey2 : ℤ) :
    Quiet (dropArguments flags fSuccess k ikey2) := by
  induction k generalizing ikey2 with
  | zero => exact quiet_pure _
  | succ k ih =>
    refine (quiet_doIf ((quiet_stacktop _).seq fun _ => quiet_failIf)).seq fun _ => ?_
    exact quiet_popstack.seq fun _ => ih _

theorem quiet_readKeysCount : Quiet (readKeysCount flags) := by
  refine quiet_intSize.seq fun _ => quiet_failIf.seq fun _ => (quiet_stacktop _).seq fun _ => ?_
  refine (quiet_scriptNum flags _ _).seq fun _ => quiet_failIf.seq fun _ => ?_
  refine Counted.seq ?_ fun _ => quiet_get.seq fun _ => quiet_failIf.seq fun _ => quiet_pure _
  exact quiet_modify fun _ => ⟨rfl, rfl⟩

theorem quiet_readSigsCount (nKeys : ℤ) : Quiet (readSigsCount flags nKeys) := by
  refine quiet_intSize.seq fun _ => quiet_failIf.seq fun _ => (quiet_stacktop _).seq fun _ => ?_
  refine (quiet_scriptNum flags _ _).seq fun _ => quiet_failIf.seq fun _ => ?_
  exact quiet_intSize.seq fun _ => quiet_failIf.seq fun _ => quiet_pure _

theorem counted_matchAll (nKeys nSigs : ℤ) :
    Counted nKeys.toNat (matchAll crypto checker flags nKeys nSigs) :=
  quiet_get.seq fun _ => (quiet_dropSignatures flags _ _ _).seq fun _ =>
    counted_matchSignatures flags crypto checker _ _ _ _ _ _

theorem quiet_checkDummy : Quiet (checkDummy flags) :=
  (quiet_require _ _).seq fun _ => quiet_doIf ((quiet_stacktop _).seq fun _ => quiet_failIf)

/-- The part of `OP_CHECKMULTISIG` behind the number of keys calls `CheckSig` at most as often as
there are keys. -/
theorem counted_checkMultiSigWith (nKeys : ℤ) :
    Counted nKeys.toNat (checkMultiSigWith crypto checker flags opcode nKeys) := by
  refine (quiet_readSigsCount flags nKeys).seq fun nSigs => ?_
  refine (counted_matchAll flags crypto checker nKeys nSigs).bind (d := 0) fun _ => ?_
  refine (quiet_dropArguments flags _ _ _).seq fun _ => (quiet_checkDummy flags).seq fun _ => ?_
  exact quiet_popstack.seq fun _ => quiet_pushResult _ _

/-- **Signatures of several keys.**  `OP_CHECKMULTISIG` calls `CheckSig` at most as often as the
number on top of the stack says. -/
theorem calls_checkMultiSig {k : ℕ} {m : Machine}
    (hk : ∀ nKeys m', readKeysCount flags m = .ok nKeys m' → nKeys.toNat ≤ k) :
    Calls k (checkMultiSig crypto checker flags opcode) m := by
  refine (quiet_readKeysCount flags).calls_bind fun nKeys m' hrun => ?_
  exact ((counted_checkMultiSigWith flags opcode crypto checker nKeys).mono (hk nKeys m' hrun)).run m'

theorem stacktop_eq_ok {i : ℤ} {m m' : Machine} {vch : Bytes} (h : stacktop i m = .ok vch m') :
    at? m.stack i = some vch ∧ m' = m := by
  unfold stacktop at h
  rw [bind_apply_ok (get_apply m)] at h
  cases hat : at? m.stack i with
  | none =>
    rw [hat] at h
    cases h
  | some v =>
    rw [hat] at h
    cases h
    exact ⟨rfl, rfl⟩

theorem scriptNum_eq_ok {vch : Bytes} {k : ℕ} {m m' : Machine} {bn : CScriptNum}
    (h : scriptNum flags vch k m = .ok bn m') :
    bn = ⟨CScriptNum.setVch vch⟩ ∧ vch.length ≤ k ∧ m' = m := by
  obtain ⟨_, m₁, h₁, hrest₁⟩ := exists_of_bind_eq_ok h
  obtain ⟨hlen, rfl⟩ := haltIf_eq_ok h₁
  obtain ⟨_, m₂, h₂, hrest₂⟩ := exists_of_bind_eq_ok hrest₁
  obtain ⟨-, rfl⟩ := haltIf_eq_ok h₂
  obtain ⟨hbn, hm⟩ := pure_eq_ok hrest₂
  exact ⟨hbn, not_lt.mp hlen, hm⟩

theorem intSize_eq_ok {m m' : Machine} {n : ℤ} (h : intSize m = .ok n m') :
    n = toInt32 m.stack.length ∧ m' = m := by
  unfold intSize at h
  rw [bind_apply_ok (get_apply m)] at h
  exact pure_eq_ok h

/-- What `nKeysCount` is. -/
theorem readKeysCount_eq_ok {m m' : Machine} {nKeys : ℤ}
    (h : readKeysCount flags m = .ok nKeys m') :
    0 ≤ nKeys ∧ nKeys ≤ 20 ∧ ∃ vch, at? m.stack (-1) = some vch ∧
      nKeys = CScriptNum.getint ⟨CScriptNum.setVch vch⟩ := by
  obtain ⟨_, m₁, h₁, hrest₁⟩ := exists_of_bind_eq_ok h
  obtain ⟨-, rfl⟩ := intSize_eq_ok h₁
  obtain ⟨_, m₂, h₂, hrest₂⟩ := exists_of_bind_eq_ok hrest₁
  obtain ⟨-, rfl⟩ := haltIf_eq_ok h₂
  obtain ⟨vch, m₃, h₃, hrest₃⟩ := exists_of_bind_eq_ok hrest₂
  obtain ⟨htop, rfl⟩ := stacktop_eq_ok h₃
  obtain ⟨bn, m₄, h₄, hrest₄⟩ := exists_of_bind_eq_ok hrest₃
  obtain ⟨rfl, -, rfl⟩ := scriptNum_eq_ok flags h₄
  obtain ⟨_, m₅, h₅, hrest₅⟩ := exists_of_bind_eq_ok hrest₄
  obtain ⟨hrange, rfl⟩ := haltIf_eq_ok h₅
  -- the rest only counts the keys as operations
  obtain ⟨_, m₆, -, hrest₆⟩ := exists_of_bind_eq_ok hrest₅
  obtain ⟨_, m₇, -, hrest₇⟩ := exists_of_bind_eq_ok hrest₆
  obtain ⟨_, m₈, -, hrest₈⟩ := exists_of_bind_eq_ok hrest₇
  obtain ⟨rfl, -⟩ := pure_eq_ok hrest₈
  exact ⟨by omega, by omega, vch, htop, rfl⟩

/-- How often a case of the `switch` calls `CheckSig`, for any stack. -/
def Case.calls : Case → ℕ
  | .checkSig => 1
  | .checkMultiSig => 20
  | _ => 0

theorem counted_checkMultiSig : Counted 20 (checkMultiSig crypto checker flags opcode) := by
  refine ⟨fun m => calls_checkMultiSig flags opcode crypto checker fun nKeys m' h => ?_⟩
  have := (readKeysCount_eq_ok flags h).2.1
  omega

theorem counted_exec (fExec : Bool) (c : Case) :
    Counted c.calls (exec crypto checker flags fExec opcode c) := by
  by_cases hsig : c = .checkSig
  · subst hsig
    exact counted_checkSigOp flags opcode crypto checker
  · by_cases hmulti : c = .checkMultiSig
    · subst hmulti
      exact counted_checkMultiSig flags opcode crypto checker
    · exact (exec_quiet flags opcode crypto checker fExec hsig hmulti).mono (Nat.zero_le _)

theorem quiet_pushOperand (vchPushValue : Bytes) :
    Quiet (pushOperand flags opcode vchPushValue) :=
  quiet_failIf.seq fun _ => quiet_pushBack _

theorem counted_execInstruction (fExec : Bool) (vchPushValue : Bytes) :
    Counted (caseOf opcode).calls
      (execInstruction crypto checker flags fExec opcode vchPushValue) :=
  counted_ite ((quiet_pushOperand flags opcode vchPushValue).mono (Nat.zero_le _))
    (counted_ite (counted_exec flags opcode crypto checker fExec _)
      ((quiet_pure _).mono (Nat.zero_le _)))

theorem quiet_countOp : Quiet (countOp opcode) := by
  refine quiet_doIf (Counted.seq ?_ fun _ => quiet_get.seq fun _ => quiet_failIf)
  exact quiet_modify fun _ => ⟨rfl, rfl⟩

/-- Counting an operation leaves the stack alone. -/
theorem countOp_stack {m m' : Machine} {a : Unit} (h : countOp opcode m = .ok a m') :
    m'.stack = m.stack ∧ m'.pbegincodehash = m.pbegincodehash := by
  unfold countOp doIf at h
  split_ifs at h with hop
  · obtain ⟨_, m₁, h₁, hrest₁⟩ := exists_of_bind_eq_ok h
    obtain ⟨_, m₂, h₂, hrest₂⟩ := exists_of_bind_eq_ok hrest₁
    obtain ⟨-, rfl⟩ := haltIf_eq_ok hrest₂
    cases h₁
    cases h₂
    exact ⟨rfl, rfl⟩
  · obtain ⟨-, rfl⟩ := pure_eq_ok h
    exact ⟨rfl, rfl⟩

/-- A round calls `CheckSig` as often as its operation does. -/
theorem calls_stepWith {c : ℕ} (fExec : Bool) (vchPushValue : Bytes) {m : Machine}
    (h : ∀ m', m'.stack = m.stack →
      Calls c (execInstruction crypto checker flags fExec opcode vchPushValue) m') :
    Calls c (stepWith crypto checker flags fExec opcode vchPushValue) m := by
  refine Quiet.calls_bind quiet_failIf fun _ m₁ h₁ => ?_
  obtain ⟨-, rfl⟩ := haltIf_eq_ok h₁
  refine (quiet_countOp opcode).calls_bind fun _ m₂ h₂ => ?_
  have hstack := (countOp_stack opcode h₂).1
  refine Quiet.calls_bind quiet_failIf fun _ m₃ h₃ => ?_
  obtain ⟨-, rfl⟩ := haltIf_eq_ok h₃
  exact calls_bind (h _ hstack) fun _ m' _ =>
    (Counted.seq quiet_get fun _ => quiet_failIf).run m'

/-- A round that reads an instruction. -/
theorem step_of_getOp {m : Machine} {vch pc : Bytes}
    (h : CScript.getOp m.pc = some (opcode, vch, pc)) :
    step crypto checker flags m
      = stepWith crypto checker flags m.fExec opcode vch { m with pc := pc } := by
  unfold step
  rw [bind_apply_ok (get_apply m), h]
  rfl

/-- A round that does not. -/
theorem step_of_getOp_eq_none {m : Machine} (h : CScript.getOp m.pc = none) :
    step crypto checker flags m = .error (.error .badOpcode) m := by
  unfold step
  rw [bind_apply_ok (get_apply m), h]
  rfl

/-- The instruction of a round that does not fail runs on the same stack. -/
theorem execInstruction_of_step {m m' : Machine} {a : Unit} {vch pc : Bytes}
    (hget : CScript.getOp m.pc = some (opcode, vch, pc))
    (h : step crypto checker flags m = .ok a m') :
    ∃ m₁ m₂, m₁.stack = m.stack ∧
      execInstruction crypto checker flags m.fExec opcode vch m₁ = .ok () m₂ := by
  rw [step_of_getOp flags opcode crypto checker hget] at h
  obtain ⟨_, m₁, h₁, hrest₁⟩ := exists_of_bind_eq_ok h
  obtain ⟨-, rfl⟩ := haltIf_eq_ok h₁
  obtain ⟨_, m₂, h₂, hrest₂⟩ := exists_of_bind_eq_ok hrest₁
  obtain ⟨_, m₃, h₃, hrest₃⟩ := exists_of_bind_eq_ok hrest₂
  obtain ⟨-, rfl⟩ := haltIf_eq_ok h₃
  obtain ⟨_, m₄, h₄, -⟩ := exists_of_bind_eq_ok hrest₃
  exact ⟨m₃, m₄, (countOp_stack opcode h₂).1, h₄⟩

/-- A round ends behind the instruction that it reads. -/
theorem pc_step {opcode : Opcode} {vch pc : Bytes} {m m' : Machine} {a : Unit}
    (hget : CScript.getOp m.pc = some (opcode, vch, pc))
    (h : step crypto checker flags m = .ok a m') : m'.pc = pc := by
  rw [step_of_getOp flags opcode crypto checker hget] at h
  have hcalls := calls_stepWith flags opcode crypto checker m.fExec vch (m := { m with pc := pc })
    fun m' _ => (counted_execInstruction flags opcode crypto checker m.fExec vch).run m'
  have hpc := hcalls.1
  rw [h] at hpc
  exact hpc

/-- **A round reads on.** -/
theorem length_pc_step {m m' : Machine} {a : Unit} (h : step crypto checker flags m = .ok a m') :
    m'.pc.length < m.pc.length := by
  cases hget : CScript.getOp m.pc with
  | none =>
    rw [step_of_getOp_eq_none flags crypto checker hget] at h
    cases h
  | some r =>
    obtain ⟨opcode, vch, pc⟩ := r
    rw [pc_step flags crypto checker hget h]
    exact CScript.length_lt_of_getOp hget

/-! ## Pushes -/

/-- The opcodes of small numbers. -/
def IsNumber (opcode : Opcode) : Prop := opcode = op1Negate ∨ (op1 ≤ opcode ∧ opcode ≤ op16)

instance : DecidablePred IsNumber := fun _ => inferInstanceAs (Decidable (_ ∨ _))

/-- A round for an opcode that is no operation counts nothing. -/
theorem stepWith_of_le {opcode : Opcode} (h : opcode ≤ op16) {vch : Bytes}
    (hlen : vch.length ≤ maxScriptElementSize) (fExec : Bool) (m : Machine) :
    stepWith crypto checker flags fExec opcode vch m
      = (execInstruction crypto checker flags fExec opcode vch >>= fun _ => limitStackSize) m := by
  have hcount : countOp opcode m = .ok () m := by
    rw [countOp, doIf, if_neg (UInt8.not_lt.mpr h)]
    rfl
  have hable : ∀ opcode : Opcode, opcode ≤ op16 → ¬ IsDisabled opcode := by
    decide +kernel
  unfold stepWith
  rw [bind_apply_ok (failIf_apply_of_neg (by omega) m), bind_apply_ok hcount,
    bind_apply_ok (failIf_apply_of_neg (hable opcode h) m)]

/-- The push of an operand. -/
theorem execInstruction_operand {opcode : Opcode} (h : opcode ≤ opPushData4) (vch : Bytes) :
    execInstruction crypto checker flags true opcode vch = pushOperand flags opcode vch := by
  rw [execInstruction, if_pos ⟨rfl, h⟩]

/-- The push of a small number. -/
theorem execInstruction_number {opcode : Opcode} (h : IsNumber opcode) (vch : Bytes) :
    execInstruction crypto checker flags true opcode vch = pushNumber opcode := by
  have hcase : ∀ opcode, IsNumber opcode → ¬ opcode ≤ opPushData4 ∧ caseOf opcode = .pushNumber := by
    decide +kernel
  obtain ⟨hgt, hnum⟩ := hcase opcode h
  rw [execInstruction, if_neg fun hc => hgt hc.2, if_pos (.inl rfl), hnum]
  rfl

theorem limitStackSize_eq_ok {m m' : Machine} {a : Unit} (h : limitStackSize m = .ok a m') :
    m' = m := by
  unfold limitStackSize at h
  rw [bind_apply_ok (get_apply m)] at h
  exact (haltIf_eq_ok h).2

/-- A round for an opcode that is no operation, if it does not fail. -/
theorem stepWith_eq_ok {opcode : Opcode} (hle : opcode ≤ op16) {vch : Bytes} {fExec : Bool}
    {m m' : Machine} {a : Unit} (h : stepWith crypto checker flags fExec opcode vch m = .ok a m') :
    execInstruction crypto checker flags fExec opcode vch m = .ok () m' := by
  by_cases hlen : vch.length ≤ maxScriptElementSize
  · rw [stepWith_of_le flags crypto checker hle hlen] at h
    obtain ⟨_, m₁, h₁, hlimit⟩ := exists_of_bind_eq_ok h
    obtain rfl := limitStackSize_eq_ok hlimit
    exact h₁
  · unfold stepWith at h
    rw [bind_apply_error (failIf_apply_of_pos (not_le.mp hlen) m)] at h
    cases h

/-! ## Evaluations -/

/-- A script that is too long is not looked at. -/
theorem evalScript_of_large {script : CScript} (m : Machine) (h : script.length > 10000) :
    evalScript crypto checker flags script m
      = .error (.error .scriptSize) (start script m) := by
  unfold evalScript
  rw [bind_apply_ok (modify_apply (start script) m), bind_apply_error (failIf_apply_of_pos h _)]

/-- The loop ends. -/
theorem evalScript_of_ok {script : CScript} {m m' : Machine} {a : Unit}
    (hsize : ¬ script.length > 10000)
    (h : evalLoop crypto checker flags script.length (start script m) = .ok a m') :
    evalScript crypto checker flags script m
      = failIf (m'.vfExec ≠ []) .unbalancedConditional m' := by
  have hcatch : catchAll (evalLoop crypto checker flags script.length) (start script m)
      = .ok () m' := by
    rw [catchAll, h]
  unfold evalScript
  rw [bind_apply_ok (modify_apply (start script) m), bind_apply_ok (failIf_apply_of_neg hsize _),
    bind_apply_ok hcatch, bind_apply_ok (get_apply m')]

/-- The loop halts. -/
theorem evalScript_of_error {script : CScript} {m m' : Machine} {h : Halt}
    (hsize : ¬ script.length > 10000)
    (hrun : evalLoop crypto checker flags script.length (start script m) = .error h m') :
    evalScript crypto checker flags script m
      = .error (if h.IsThrown then .error .unknownError else h) m' := by
  have hcatch : catchAll (evalLoop crypto checker flags script.length) (start script m)
      = .error (if h.IsThrown then .error .unknownError else h) m' := by
    rw [catchAll, hrun]
  unfold evalScript
  rw [bind_apply_ok (modify_apply (start script) m), bind_apply_ok (failIf_apply_of_neg hsize _),
    bind_apply_error hcatch]

end

end Script
