/-
# Counting signature checks

`GetSigOpCount` counts, without running a script, how often it may check a signature.  It looks at
the opcode before an `OP_CHECKMULTISIG` and, for a script hash, at the last push of the
`scriptSig`; `EvalScript` uses what is on the stack.  The two agree because an opcode `OP_N` that
is executed right before `OP_CHECKMULTISIG` leaves `N` on top of the stack, and because a
`scriptSig` that only pushes leaves its last push there.

* `evalLoop_calls` : the loop of `EvalScript` against the loop of `GetSigOpCount`;
* `pushOnly_top` : the top of the stack after a script that only pushes;
* `checkSig_calls_le` : the bounds for `EvalScript` and `VerifyScript`.

The count has 32 bits.  It is exact for scripts of up to `2 ^ 32 / 20` bytes.
-/
import Hub.ScriptSafety

open ByteCodec Opcode Bytes Halting

namespace Script

/-! ## The count as a natural number -/

/-- What the loop of `GetSigOpCount` adds, without overflow. -/
def sigOpSum (fAccurate : Bool) : ℕ → Opcode → Bytes → ℕ
  | 0, _, _ => 0
  | fuel + 1, lastOpcode, pc =>
    match CScript.getOp pc with
    | none => 0
    | some (opcode, _, pc) =>
      (CScript.sigOps fAccurate lastOpcode opcode).toNat + sigOpSum fAccurate fuel opcode pc

theorem sigOps_le (fAccurate : Bool) (lastOpcode opcode : Opcode) :
    (CScript.sigOps fAccurate lastOpcode opcode).toNat ≤ 20 := by
  have hdecode : ∀ lastOpcode : Opcode, lastOpcode ≤ op16 →
      (UInt32.ofNat (CScript.decodeOpN lastOpcode)).toNat ≤ 20 := by
    decide +kernel
  unfold CScript.sigOps
  split_ifs with h₁ h₂ h₃
  · decide
  · exact hdecode lastOpcode h₃.2.2
  · decide
  · decide

theorem sigOpSum_le (fAccurate : Bool) (fuel : ℕ) (lastOpcode : Opcode) (pc : Bytes) :
    sigOpSum fAccurate fuel lastOpcode pc ≤ 20 * pc.length := by
  induction fuel generalizing lastOpcode pc with
  | zero => exact Nat.zero_le _
  | succ fuel ih =>
    rw [sigOpSum]
    cases hget : CScript.getOp pc with
    | none => exact Nat.zero_le _
    | some r =>
      obtain ⟨opcode, vch, rest⟩ := r
      have hlen := CScript.length_lt_of_getOp hget
      have hrest := ih opcode rest
      have hop := sigOps_le fAccurate lastOpcode opcode
      simp only
      omega

theorem sigOpLoop_eq (fAccurate : Bool) (fuel : ℕ) (lastOpcode : Opcode) (pc : Bytes) (n : UInt32) :
    CScript.sigOpLoop fAccurate fuel lastOpcode pc n
      = n + UInt32.ofNat (sigOpSum fAccurate fuel lastOpcode pc) := by
  induction fuel generalizing lastOpcode pc n with
  | zero =>
    rw [CScript.sigOpLoop, sigOpSum]
    exact (UInt32.add_zero n).symm
  | succ fuel ih =>
    rw [CScript.sigOpLoop, sigOpSum]
    cases hget : CScript.getOp pc with
    | none => exact (UInt32.add_zero n).symm
    | some r =>
      obtain ⟨opcode, vch, rest⟩ := r
      simp only [ih, UInt32.ofNat_add, UInt32.ofNat_toNat, UInt32.add_assoc]

/-- Up to `2 ^ 32 / 20` bytes the count does not overflow. -/
theorem toNat_getSigOpCount {script : CScript} (h : 20 * script.length < 2 ^ 32)
    (fAccurate : Bool) : (CScript.getSigOpCount script fAccurate).toNat
      = sigOpSum fAccurate script.length opInvalidOpcode script := by
  have hlt : sigOpSum fAccurate script.length opInvalidOpcode script < UInt32.size :=
    lt_of_le_of_lt (sigOpSum_le fAccurate script.length opInvalidOpcode script) h
  rw [CScript.getSigOpCount, sigOpLoop_eq, UInt32.zero_add, UInt32.toNat_ofNat_of_lt' hlt]

/-- Looking at the opcode before can only lower the count. -/
theorem sigOps_accurate_le (lastOpcode opcode : Opcode) :
    (CScript.sigOps true lastOpcode opcode).toNat
      ≤ (CScript.sigOps false lastOpcode opcode).toNat := by
  have h := sigOps_le true lastOpcode opcode
  unfold CScript.sigOps at h ⊢
  by_cases h₁ : opcode = opCheckSig ∨ opcode = opCheckSigVerify
  · rw [if_pos h₁, if_pos h₁]
  · rw [if_neg h₁] at h
    rw [if_neg h₁, if_neg h₁]
    by_cases h₂ : opcode = opCheckMultiSig ∨ opcode = opCheckMultiSigVerify
    · rw [if_pos h₂] at h
      rw [if_pos h₂, if_pos h₂, if_neg (c := (false = true ∧ _)) fun hc => Bool.false_ne_true hc.1]
      exact h
    · rw [if_neg h₂, if_neg h₂]

theorem sigOpSum_accurate_le (fuel : ℕ) (lastOpcode : Opcode) (pc : Bytes) :
    sigOpSum true fuel lastOpcode pc ≤ sigOpSum false fuel lastOpcode pc := by
  induction fuel generalizing lastOpcode pc with
  | zero => exact le_rfl
  | succ fuel ih =>
    rw [sigOpSum, sigOpSum]
    cases CScript.getOp pc with
    | none => exact le_rfl
    | some r => exact Nat.add_le_add (sigOps_accurate_le _ _) (ih _ _)

/-! ## The loops side by side -/

/-- If the opcode before is `OP_N` and was executed, `N` is on top of the stack. -/
def Fits (lastOpcode : Opcode) (m : Machine) : Prop :=
  op1 ≤ lastOpcode → lastOpcode ≤ op16 → m.fExec = true →
    at? m.stack (-1) = some (CScriptNum.getvch ⟨lastOpcode.toNat - (op1.toNat - 1)⟩)

section

variable (crypto : Crypto) (checker : BaseSignatureChecker) (flags : Flags)

/-- The number of keys after `OP_N`. -/
theorem decodeOpN_eq (lastOpcode : Opcode) (h₁ : op1 ≤ lastOpcode) (h₁₆ : lastOpcode ≤ op16) :
    (CScriptNum.getint ⟨CScriptNum.setVch
      (CScriptNum.getvch ⟨lastOpcode.toNat - (op1.toNat - 1)⟩)⟩).toNat
      = (UInt32.ofNat (CScript.decodeOpN lastOpcode)).toNat := by
  revert lastOpcode
  decide +kernel

/-- **An instruction** calls `CheckSig` at most as often as `GetSigOpCount` counts for it. -/
theorem calls_execInstruction {lastOpcode opcode : Opcode} {vch : Bytes} {m : Machine}
    {fExec : Bool} (hfits : op1 ≤ lastOpcode → lastOpcode ≤ op16 → fExec = true →
      at? m.stack (-1) = some (CScriptNum.getvch ⟨lastOpcode.toNat - (op1.toNat - 1)⟩)) :
    Calls (CScript.sigOps true lastOpcode opcode).toNat
      (execInstruction crypto checker flags fExec opcode vch) m := by
  by_cases hmulti : caseOf opcode = .checkMultiSig
  · have hcases : ∀ opcode, caseOf opcode = .checkMultiSig →
        (opcode = opCheckMultiSig ∨ opcode = opCheckMultiSigVerify) ∧
        ¬ (opcode = opCheckSig ∨ opcode = opCheckSigVerify) ∧
        ¬ opcode ≤ opPushData4 ∧ ¬ (opIf ≤ opcode ∧ opcode ≤ opEndIf) := by
      decide +kernel
    obtain ⟨hop, hsig, hpush, hif⟩ := hcases opcode hmulti
    cases fExec with
    | false =>
      have hskip : execInstruction crypto checker flags false opcode vch = pure () := by
        rw [execInstruction, if_neg fun h => hpush h.2,
          if_neg fun h => h.elim Bool.false_ne_true hif]
      rw [hskip]
      exact ((quiet_pure ()).mono (Nat.zero_le _)).run m
    | true =>
      have hexec : execInstruction crypto checker flags true opcode vch
          = checkMultiSig crypto checker flags opcode := by
        rw [execInstruction, if_neg fun h => hpush h.2, if_pos (.inl rfl), hmulti]
        rfl
      rw [hexec]
      refine calls_checkMultiSig flags opcode crypto checker fun nKeys m' hrun => ?_
      rw [CScript.sigOps, if_neg hsig, if_pos hop]
      obtain ⟨-, hle, vch, htop, hkeys⟩ := readKeysCount_eq_ok flags hrun
      split_ifs with hlast
      · -- the number on top is the one that `OP_N` pushed
        obtain ⟨-, h₁, h₁₆⟩ := hlast
        rw [hfits h₁ h₁₆ rfl] at htop
        obtain rfl := Option.some.inj htop
        rw [hkeys]
        exact (decodeOpN_eq lastOpcode h₁ h₁₆).le
      · show nKeys.toNat ≤ 20
        omega
  · -- one call for `OP_CHECKSIG`, none for the others
    have hcalls : ∀ opcode, caseOf opcode ≠ .checkMultiSig → (caseOf opcode).calls
        = if opcode = opCheckSig ∨ opcode = opCheckSigVerify then 1 else 0 := by
      decide +kernel
    have hrun := (counted_execInstruction flags opcode crypto checker fExec vch).run m
    rw [hcalls opcode hmulti] at hrun
    unfold CScript.sigOps
    split_ifs with h₁ h₂ h₃
    · rwa [if_pos h₁] at hrun
    · rw [if_neg h₁] at hrun
      exact ⟨hrun.1, le_trans hrun.2 (by omega)⟩
    · rw [if_neg h₁] at hrun
      exact ⟨hrun.1, le_trans hrun.2 (by omega)⟩
    · rwa [if_neg h₁] at hrun

/-- An opcode `OP_N` that is executed leaves `N` on top of the stack. -/
theorem fits_step {opcode : Opcode} {vch pc : Bytes} {m m' : Machine}
    (hget : CScript.getOp m.pc = some (opcode, vch, pc))
    (h : step crypto checker flags m = .ok () m') : Fits opcode m' := by
  intro h₁ h₁₆ hexec
  rw [step_of_getOp flags opcode crypto checker hget] at h
  have hrun := stepWith_eq_ok flags crypto checker h₁₆ h
  cases hm : m.fExec with
  | false =>
    -- nothing was executed, and nothing ended the branch that is skipped
    have hskip : ¬ (opIf ≤ opcode ∧ opcode ≤ opEndIf) :=
      fun hif => absurd (UInt8.le_trans hif.1 h₁₆) (by decide)
    rw [hm, execInstruction, if_neg fun h => Bool.false_ne_true h.1,
      if_neg fun h => h.elim Bool.false_ne_true hskip] at hrun
    obtain ⟨-, rfl⟩ := pure_eq_ok hrun
    have hfalse : m.fExec = true := hexec
    rw [hm] at hfalse
    cases hfalse
  | true =>
    rw [hm, execInstruction_number flags crypto checker (.inr ⟨h₁, h₁₆⟩)] at hrun
    cases hrun
    rfl

/-- **The loop** of `EvalScript` calls `CheckSig` at most as often as the loop of `GetSigOpCount`
counts. -/
theorem evalLoop_calls (fuel : ℕ) (lastOpcode : Opcode) (m : Machine) (hfits : Fits lastOpcode m) :
    (final (evalLoop crypto checker flags fuel m)).checkSigs
      ≤ m.checkSigs + sigOpSum true fuel lastOpcode m.pc := by
  induction fuel generalizing lastOpcode m with
  | zero =>
    have hquiet : Quiet (evalLoop crypto checker flags 0) :=
      quiet_get.seq fun _ => quiet_haltIf
    exact (hquiet.run m).2
  | succ fuel ih =>
    rw [evalLoop, bind_apply_ok (get_apply m)]
    split_ifs with hend
    · exact Nat.le_add_right _ _
    · rw [sigOpSum]
      cases hget : CScript.getOp m.pc with
      | none =>
        rw [bind_apply_error (step_of_getOp_eq_none flags crypto checker hget)]
        exact Nat.le_add_right _ _
      | some r =>
        obtain ⟨opcode, vch, pc⟩ := r
        have hstep : Calls (CScript.sigOps true lastOpcode opcode).toNat
            (stepWith crypto checker flags m.fExec opcode vch) { m with pc := pc } := by
          apply calls_stepWith
          intro m' hstack
          apply calls_execInstruction
          intro h₁ h₁₆ hexec
          rw [hstack]
          exact hfits h₁ h₁₆ hexec
        obtain ⟨hpc, hcalls⟩ := hstep
        rw [← step_of_getOp flags opcode crypto checker hget] at hpc hcalls
        cases hrun : step crypto checker flags m with
        | error e m' =>
          rw [bind_apply_error hrun]
          rw [hrun] at hcalls
          exact le_trans hcalls (Nat.add_le_add_left (Nat.le_add_right _ _) _)
        | ok a m' =>
          rw [bind_apply_ok hrun]
          rw [hrun] at hpc hcalls
          have hpc' : m'.pc = pc := hpc
          have hcalls' : m'.checkSigs
              ≤ m.checkSigs + (CScript.sigOps true lastOpcode opcode).toNat := hcalls
          have hrest := ih opcode m' (fits_step crypto checker flags hget hrun)
          rw [hpc'] at hrest
          simp only
          omega

/-- An evaluation ends as its loop does, as far as the calls are concerned. -/
theorem evalScript_calls_eq {script : CScript} (hsize : ¬ script.length > 10000) (m : Machine) :
    (final (evalScript crypto checker flags script m)).checkSigs
      = (final (evalLoop crypto checker flags script.length (start script m))).checkSigs := by
  cases hrun : evalLoop crypto checker flags script.length (start script m) with
  | error h m' =>
    rw [evalScript_of_error flags crypto checker hsize hrun]
    rfl
  | ok a m' =>
    rw [evalScript_of_ok flags crypto checker hsize hrun]
    by_cases hbalanced : m'.vfExec = []
    · rw [failIf_apply_of_neg (not_not.mpr hbalanced)]
    · rw [failIf_apply_of_pos hbalanced]
      rfl

/-- **`EvalScript`** calls `CheckSig` at most as often as `GetSigOpCount(true)` says. -/
theorem evalScript_calls_le (script : CScript) (m : Machine) :
    (final (evalScript crypto checker flags script m)).checkSigs
      ≤ m.checkSigs + (CScript.getSigOpCount script true).toNat := by
  by_cases hsize : script.length > 10000
  · rw [evalScript_of_large flags crypto checker m hsize]
    exact Nat.le_add_right _ _
  · rw [evalScript_calls_eq crypto checker flags hsize, toNat_getSigOpCount (by omega)]
    refine evalLoop_calls crypto checker flags script.length opInvalidOpcode (start script m) ?_
    intro _ h₁₆
    exact absurd h₁₆ (by decide)

/-- The counts, for scripts that do not overflow them. -/
theorem getSigOpCount_accurate_le {script : CScript} (h : 20 * script.length < 2 ^ 32) :
    CScript.getSigOpCount script true ≤ CScript.getSigOpCount script false := by
  rw [UInt32.le_iff_toNat_le, toNat_getSigOpCount h, toNat_getSigOpCount h]
  exact sigOpSum_accurate_le _ _ _

theorem evalScript_calls_le_false (script : CScript) (m : Machine) :
    (final (evalScript crypto checker flags script m)).checkSigs
      ≤ m.checkSigs + (CScript.getSigOpCount script false).toNat := by
  by_cases hsize : script.length > 10000
  · rw [evalScript_of_large flags crypto checker m hsize]
    exact Nat.le_add_right _ _
  · have hle := UInt32.le_iff_toNat_le.mp
      (getSigOpCount_accurate_le (show 20 * script.length < 2 ^ 32 by omega))
    exact le_trans (evalScript_calls_le crypto checker flags script m) (by omega)

/-! ## Scripts that only push -/

/-- The top of the stack is `data`, or a small number. -/
def IsTop (data : Bytes) (m : Machine) : Prop :=
  m.stack.headD [] = data ∨ ∃ opcode, IsNumber opcode ∧
    m.stack.headD [] = CScriptNum.getvch ⟨opcode.toNat - (op1.toNat - 1)⟩

/-- A small number as a script checks no signature. -/
theorem getSigOpCount_number {opcode : Opcode} (h : IsNumber opcode) :
    CScript.getSigOpCount (CScriptNum.getvch ⟨opcode.toNat - (op1.toNat - 1)⟩) true = 0 := by
  revert opcode
  decide +kernel

/-- An opcode of `IsPushOnly` that is executed pushes its operand, or a small number. -/
theorem isTop_execInstruction {opcode : Opcode} (hle : opcode ≤ op16) {vch : Bytes}
    {m m' : Machine} (h : execInstruction crypto checker flags true opcode vch m = .ok () m') :
    IsTop vch m' ∧ m'.vfExec = m.vfExec := by
  by_cases hpush : opcode ≤ opPushData4
  · rw [execInstruction_operand flags crypto checker hpush] at h
    obtain ⟨_, m₁, h₁, h₂⟩ := exists_of_bind_eq_ok h
    obtain ⟨-, rfl⟩ := haltIf_eq_ok h₁
    cases h₂
    exact ⟨.inl rfl, rfl⟩
  · by_cases hnum : IsNumber opcode
    · rw [execInstruction_number flags crypto checker hnum] at h
      cases h
      exact ⟨.inr ⟨opcode, hnum, rfl⟩, rfl⟩
    · -- `OP_RESERVED` is the only one left
      have hcases : ∀ opcode : Opcode, opcode ≤ op16 → ¬ opcode ≤ opPushData4 →
          ¬ IsNumber opcode → caseOf opcode = .default := by
        decide +kernel
      rw [execInstruction, if_neg fun hc => hpush hc.2, if_pos (.inl rfl),
        hcases opcode hle hpush hnum] at h
      cases h

theorem isPushOnlyFrom_of_getOp {fuel : ℕ} {opcode : Opcode} {vch pc rest : Bytes}
    (hget : CScript.getOp pc = some (opcode, vch, rest)) :
    CScript.isPushOnlyFrom (fuel + 1) pc
      = if opcode > op16 then false else CScript.isPushOnlyFrom fuel rest := by
  cases pc with
  | nil => cases hget
  | cons b pc =>
    rw [CScript.isPushOnlyFrom, hget]
    exact List.cons_ne_nil b pc

theorem lastPush_of_getOp {fuel : ℕ} {opcode : Opcode} {vch pc rest data : Bytes}
    (hget : CScript.getOp pc = some (opcode, vch, rest)) :
    CScript.lastPush (fuel + 1) pc data
      = if opcode > op16 then none else CScript.lastPush fuel rest vch := by
  cases pc with
  | nil => cases hget
  | cons b pc =>
    rw [CScript.lastPush, hget]
    exact List.cons_ne_nil b pc

/-- **A script that only pushes** leaves its last push on top of the stack. -/
theorem pushOnly_top (fuel : ℕ) {data : Bytes} {m m' : Machine} {a : Unit}
    (hpush : CScript.isPushOnlyFrom fuel m.pc = true) (hexec : m.vfExec = []) (htop : IsTop data m)
    (h : evalLoop crypto checker flags fuel m = .ok a m') :
    ∃ data', CScript.lastPush fuel m.pc data = some data' ∧ IsTop data' m' := by
  induction fuel generalizing data m with
  | zero =>
    rw [evalLoop, bind_apply_ok (get_apply m)] at h
    obtain ⟨hend, rfl⟩ := haltIf_eq_ok h
    refine ⟨data, ?_, htop⟩
    rw [not_not.mp hend, CScript.lastPush]
  | succ fuel ih =>
    rw [evalLoop, bind_apply_ok (get_apply m)] at h
    split_ifs at h with hend
    · obtain ⟨-, rfl⟩ := pure_eq_ok h
      refine ⟨data, ?_, htop⟩
      rw [hend, CScript.lastPush]
    · obtain ⟨_, m₁, hstep, hrest⟩ := exists_of_bind_eq_ok h
      cases hget : CScript.getOp m.pc with
      | none =>
        rw [step_of_getOp_eq_none flags crypto checker hget] at hstep
        cases hstep
      | some r =>
        obtain ⟨opcode, vch, pc⟩ := r
        rw [isPushOnlyFrom_of_getOp hget] at hpush
        split_ifs at hpush with hop
        have hle : opcode ≤ op16 := UInt8.not_lt.mp hop
        have hpc := pc_step flags crypto checker hget hstep
        rw [step_of_getOp flags opcode crypto checker hget] at hstep
        have hrun := stepWith_eq_ok flags crypto checker hle hstep
        have hm : m.fExec = true := by
          rw [Machine.fExec, hexec]
          rfl
        rw [hm] at hrun
        obtain ⟨htop₁, hexec₁⟩ := isTop_execInstruction crypto checker flags hle hrun
        rw [lastPush_of_getOp hget, if_neg hop, ← hpc]
        rw [← hpc] at hpush
        exact ih hpush (hexec₁.trans hexec) htop₁ hrest

/-! ## Verifications -/

/-- From `m`, the program calls `CheckSig` at most `c` times. -/
def Spends {α : Type} (c : ℕ) (x : Prog α) (m : Machine) : Prop :=
  (final (x m)).checkSigs ≤ m.checkSigs + c

theorem Spends.bind {α β : Type} {c d : ℕ} {x : Prog α} {f : α → Prog β} {m : Machine}
    (hx : Spends c x m) (hf : ∀ a m', x m = .ok a m' → Spends d (f a) m') :
    Spends (c + d) (x >>= f) m := by
  unfold Spends at hx ⊢
  cases hrun : x m with
  | ok a m' =>
    rw [hrun] at hx
    rw [bind_apply_ok hrun]
    have hx' : m'.checkSigs ≤ m.checkSigs + c := hx
    have hrest : (final (f a m')).checkSigs ≤ m'.checkSigs + d := hf a m' hrun
    omega
  | error e m' =>
    rw [hrun] at hx
    rw [bind_apply_error hrun]
    have hx' : m'.checkSigs ≤ m.checkSigs + c := hx
    show m'.checkSigs ≤ m.checkSigs + (c + d)
    omega

theorem spends_of_quiet {α : Type} {c : ℕ} {x : Prog α} (hx : Quiet x) (m : Machine) :
    Spends c x m :=
  le_trans (hx.run m).2 (Nat.add_le_add_left (Nat.zero_le c) _)

/-- A quiet program first. -/
theorem Spends.seq {α β : Type} {c : ℕ} {x : Prog α} {f : α → Prog β} {m : Machine}
    (hx : Quiet x) (hf : ∀ a m', x m = .ok a m' → Spends c (f a) m') : Spends c (x >>= f) m := by
  rw [← Nat.zero_add c]
  exact (spends_of_quiet hx m).bind hf

theorem quiet_requireTrue : Quiet requireTrue :=
  Counted.seq quiet_get fun _ => Counted.seq quiet_failIf fun _ => quiet_failIf

theorem quiet_requireCleanStack : Quiet (requireCleanStack flags) :=
  Counted.seq quiet_haltIf fun _ => Counted.seq quiet_get fun _ => quiet_failIf

/-- The top of the stack after `scriptSig`, as a script, is counted by `GetSigOpCount` as the
script behind the hash. -/
theorem getSigOpCount_top_le {scriptSig scriptPubKey : CScript} {m m' : Machine} {a : Unit}
    (hhash : CScript.isPayToScriptHash scriptPubKey = true)
    (hpush : CScript.isPushOnly scriptSig = true) (hstack : m.stack = [])
    (h : evalScript crypto checker flags scriptSig m = .ok a m') :
    (CScript.getSigOpCount (m'.stack.headD []) true).toNat
      ≤ (CScript.getSigOpCountP2SH scriptPubKey scriptSig).toNat := by
  by_cases hsize : scriptSig.length > 10000
  · rw [evalScript_of_large flags crypto checker m hsize] at h
    cases h
  · cases hrun : evalLoop crypto checker flags scriptSig.length (start scriptSig m) with
    | error e m₁ =>
      rw [evalScript_of_error flags crypto checker hsize hrun] at h
      cases h
    | ok b m₁ =>
      rw [evalScript_of_ok flags crypto checker hsize hrun] at h
      obtain ⟨-, rfl⟩ := haltIf_eq_ok h
      have htop : IsTop [] (start scriptSig m) := by
        left
        show m.stack.headD [] = []
        rw [hstack]
        rfl
      obtain ⟨data, hdata, hlast⟩ :=
        pushOnly_top crypto checker flags scriptSig.length (m := start scriptSig m) hpush rfl htop hrun
      have hdata' : CScript.lastPush scriptSig.length scriptSig [] = some data := hdata
      rw [CScript.getSigOpCountP2SH, if_pos hhash, hdata']
      rcases hlast with heq | ⟨opcode, hnum, heq⟩
      · rw [heq]
      · rw [heq, getSigOpCount_number hnum]
        exact Nat.zero_le _

/-- The calls for the script behind a hash. -/
def sigOpsP2SH (scriptSig scriptPubKey : CScript) : ℕ :=
  if CScript.isPayToScriptHash scriptPubKey then
    (CScript.getSigOpCountP2SH scriptPubKey scriptSig).toNat
  else 0

/-- The script behind a hash. -/
theorem spends_verifyScriptHash {scriptSig scriptPubKey : CScript} {stackCopy : List Bytes}
    (hhash : CScript.isPayToScriptHash scriptPubKey = true)
    (hcopy : CScript.isPushOnly scriptSig = true →
      (CScript.getSigOpCount (stackCopy.headD []) true).toNat
        ≤ (CScript.getSigOpCountP2SH scriptPubKey scriptSig).toNat) (m : Machine) :
    Spends (sigOpsP2SH scriptSig scriptPubKey)
      (verifyScriptHash crypto checker flags scriptSig stackCopy) m := by
  refine Spends.seq quiet_failIf fun _ m₁ h₁ => ?_
  obtain ⟨hpush, -⟩ := haltIf_eq_ok h₁
  refine Spends.seq (quiet_modify fun _ => ⟨rfl, rfl⟩) fun _ m₂ _ => ?_
  refine Spends.seq quiet_haltIf fun _ m₃ _ => ?_
  refine Spends.seq quiet_popstack fun _ m₄ _ => ?_
  rw [← Nat.add_zero (sigOpsP2SH scriptSig scriptPubKey)]
  refine Spends.bind ?_ fun _ m₅ _ => spends_of_quiet quiet_requireTrue m₅
  rw [sigOpsP2SH, if_pos hhash]
  exact le_trans (evalScript_calls_le crypto checker flags _ m₄)
    (Nat.add_le_add_left (hcopy (not_not.mp hpush)) _)

/-- **`VerifyScript`** calls `CheckSig` at most as often as the three counts say. -/
theorem spends_verifyWith (scriptSig scriptPubKey : CScript) (m : Machine) :
    Spends ((CScript.getSigOpCount scriptSig false).toNat
        + ((CScript.getSigOpCount scriptPubKey false).toNat + sigOpsP2SH scriptSig scriptPubKey))
      (verifyWith crypto checker flags scriptSig scriptPubKey) m := by
  refine Spends.seq quiet_failIf fun _ m₁ h₁ => ?_
  refine Spends.seq (quiet_modify fun _ => ⟨rfl, rfl⟩) fun _ m₂ h₂ => ?_
  have hstack : m₂.stack = [] := by
    cases h₂
    rfl
  refine Spends.bind (evalScript_calls_le_false crypto checker flags scriptSig m₂)
    fun _ m₃ h₃ => ?_
  refine Spends.seq quiet_get fun m₃' m₄ h₄ => ?_
  cases h₄
  refine Spends.bind (evalScript_calls_le_false crypto checker flags scriptPubKey m₃)
    fun _ m₅ _ => ?_
  refine Spends.seq quiet_requireTrue fun _ m₆ _ => ?_
  rw [← Nat.add_zero (sigOpsP2SH scriptSig scriptPubKey)]
  refine Spends.bind ?_ fun _ m₇ _ =>
    spends_of_quiet (quiet_doIf (quiet_requireCleanStack flags)) m₇
  unfold doIf
  split_ifs with hp2sh
  · exact spends_verifyScriptHash crypto checker flags hp2sh.2
      (fun hpush => getSigOpCount_top_le crypto checker flags hp2sh.2 hpush hstack h₃) m₆
  · exact spends_of_quiet (quiet_pure ()) m₆

/-- **Counting is sound.**  `EvalScript` calls `CheckSig` at most as often as either count of
the script says, and `VerifyScript` at most as often as the counts of its scripts; the accurate
count is the lower one as long as the other does not overflow. -/
theorem checkSig_calls_le :
    (∀ (script : CScript) (m : Machine),
      (final (evalScript crypto checker flags script m)).checkSigs
        ≤ m.checkSigs + (CScript.getSigOpCount script true).toNat ∧
      (final (evalScript crypto checker flags script m)).checkSigs
        ≤ m.checkSigs + (CScript.getSigOpCount script false).toNat) ∧
    (∀ script : CScript, 20 * script.length < 2 ^ 32 →
      CScript.getSigOpCount script true ≤ CScript.getSigOpCount script false) ∧
    ∀ (scriptSig scriptPubKey : CScript) (m : Machine),
      (final (verifyScript crypto checker flags scriptSig scriptPubKey m)).checkSigs
        ≤ m.checkSigs + ((CScript.getSigOpCount scriptSig false).toNat
          + (CScript.getSigOpCount scriptPubKey false).toNat
          + if CScript.isPayToScriptHash scriptPubKey then
              (CScript.getSigOpCountP2SH scriptPubKey scriptSig).toNat
            else 0) := by
  refine ⟨fun script m => ⟨?_, ?_⟩, fun script h => getSigOpCount_accurate_le h, ?_⟩
  · exact evalScript_calls_le crypto checker flags script m
  · exact evalScript_calls_le_false crypto checker flags script m
  · intro scriptSig scriptPubKey m
    rw [Nat.add_assoc (CScript.getSigOpCount scriptSig false).toNat]
    exact spends_verifyWith crypto checker (withStrictEnc flags) scriptSig scriptPubKey m

end

/-- One signature of one key. -/
theorem checkSig_calls_le_multiSig :
    CScript.getSigOpCount [op1, opCheckMultiSig] true
      ≤ CScript.getSigOpCount [op1, opCheckMultiSig] false :=
  (checkSig_calls_le nullCrypto baseChecker verifyP2SH).2.1 [op1, opCheckMultiSig] (by decide)

/-! ## The counts overflow -/

/-- `OP_1 OP_CHECKMULTISIG`, repeated. -/
def multiSigs (k : ℕ) : CScript := (List.replicate k [op1, opCheckMultiSig]).flatten

theorem length_multiSigs (k : ℕ) : (multiSigs k).length = 2 * k := by
  rw [multiSigs, List.length_flatten, List.map_replicate, List.sum_replicate_nat, Nat.mul_comm]
  rfl

theorem sigOpSum_multiSigs (fAccurate : Bool) {k : ℕ} (hk : 2 * k < 2 ^ 31) (lastOpcode : Opcode) :
    sigOpSum fAccurate (2 * k) lastOpcode (multiSigs k) = k * (if fAccurate then 1 else 20) := by
  induction k generalizing lastOpcode with
  | zero => rw [Nat.mul_zero, sigOpSum, Nat.zero_mul]
  | succ k ih =>
    have hlen := length_multiSigs k
    have hcons : multiSigs (k + 1) = op1 :: opCheckMultiSig :: multiSigs k := by
      rw [multiSigs, List.replicate_succ, List.flatten_cons]
      rfl
    have hnone : ∀ lastOpcode, (CScript.sigOps fAccurate lastOpcode op1).toNat = 0 := by
      intro lastOpcode
      rfl
    have hmulti : (CScript.sigOps fAccurate op1 opCheckMultiSig).toNat
        = if fAccurate then 1 else 20 := by
      cases fAccurate <;> rfl
    rw [hcons, show 2 * (k + 1) = 2 * k + 1 + 1 from rfl, sigOpSum,
      CScript.getOp_of_gt (by decide) (by rw [List.length_cons]; omega)]
    simp only
    rw [sigOpSum, CScript.getOp_of_gt (by decide) (by omega)]
    simp only
    rw [ih (by omega), hnone, hmulti, Nat.succ_mul]
    omega

/-- A script of 400 MiB that is counted wrong. -/
theorem not_getSigOpCount_accurate_le :
    ¬ ∀ script : CScript,
      CScript.getSigOpCount script true ≤ CScript.getSigOpCount script false := by
  intro h
  have hcount : ∀ fAccurate, CScript.getSigOpCount (multiSigs 214748365) fAccurate
      = UInt32.ofNat (214748365 * (if fAccurate then 1 else 20)) := by
    intro fAccurate
    rw [CScript.getSigOpCount, sigOpLoop_eq, length_multiSigs, sigOpSum_multiSigs _ (by omega),
      UInt32.zero_add]
  have hle := h (multiSigs 214748365)
  rw [hcount, hcount] at hle
  exact absurd hle (by decide)

end Script
