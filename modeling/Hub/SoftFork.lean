/-
# Verification flags are soft forks

A script that is valid under some flags is valid under fewer of them: `verifyScript_of_softer`.
The proof runs the interpreter twice.  An operation does the same under both sets of flags, or it
checks something under the larger one that it does not check under the smaller one and that leaves
the machine alone: `exec_refines`.

There is one exception.  A lock time operation that is not enabled is a `NOP` that may be
discouraged; enabling it can turn that failure into a success (`not_verifyScript_of_subset`).
-/
import Hub.ScriptSafety

open ByteCodec Opcode Bytes Halting

namespace Script

/-! ## Fewer flags -/

/-- The flags `f` are among the flags `g`. -/
def Flags.Subset (f g : Flags) : Prop := f &&& g = f

instance (f g : Flags) : Decidable (Flags.Subset f g) := inferInstanceAs (Decidable (_ = _))

theorem Flags.Subset.has {f g bit : Flags} (h : f.Subset g) (hf : f.has bit) : g.has bit := by
  unfold Flags.has at hf ⊢
  rw [bne_iff_ne] at hf ⊢
  intro hg
  apply hf
  rw [← h, UInt32.and_assoc, hg, UInt32.and_zero]

/-- `f` asks for less than `g`: they agree on the fork id, and where `f` discourages `NOP`s they
agree on which lock times are enabled. -/
structure Softer (f g : Flags) : Prop where
  subset : f.Subset g
  forkId : f.has enableSigHashForkId = g.has enableSigHashForkId
  lockTime : f.has verifyDiscourageUpgradableNops →
    f.has verifyCheckLockTimeVerify = g.has verifyCheckLockTimeVerify
  sequence : f.has verifyDiscourageUpgradableNops →
    f.has verifyCheckSequenceVerify = g.has verifyCheckSequenceVerify

/-- `CheckSig` looks at the flags for the fork id only. -/
def ForkIdOnly (checker : BaseSignatureChecker) : Prop :=
  ∀ vchSig vchPubKey scriptCode f g,
    Flags.has f enableSigHashForkId = Flags.has g enableSigHashForkId →
    checker.checkSig vchSig vchPubKey scriptCode f = checker.checkSig vchSig vchPubKey scriptCode g

/-! ## Checks -/

theorem still_require (k : ℕ) (e : ScriptError) : Still (require k e) :=
  still_get.bind fun _ => still_haltIf

theorem still_stacktop (i : ℤ) : Still (stacktop i) := fun _ _ _ h => (stacktop_eq_ok h).2

theorem still_scriptNum (flags : Flags) (vch : Bytes) (k : ℕ) : Still (scriptNum flags vch k) :=
  fun _ _ _ h => (scriptNum_eq_ok flags h).2.2

theorem still_requireValidEncoding (vchSig : Bytes) : Still (requireValidEncoding vchSig) := by
  unfold requireValidEncoding
  split
  · exact still_haltIf
  · rintro s a s' ⟨⟩

theorem still_isLowDERSignature (crypto : Crypto) (vchSig : Bytes) :
    Still (isLowDERSignature crypto vchSig) :=
  (still_requireValidEncoding vchSig).bind fun _ => still_haltIf

theorem still_checkHashType (flags : Flags) (vchSig : Bytes) :
    Still (checkHashType flags vchSig) :=
  still_haltIf.bind fun _ => still_haltIf.bind fun _ => still_haltIf

theorem still_checkLockTimeVerify (checker : BaseSignatureChecker) (flags : Flags) :
    Still (checkLockTimeVerify checker flags) := by
  unfold checkLockTimeVerify
  split_ifs
  · exact (still_require _ _).bind fun _ => (still_stacktop _).bind fun _ =>
      (still_scriptNum flags _ _).bind fun _ => still_haltIf.bind fun _ => still_haltIf
  · exact still_haltIf

theorem still_checkSequenceVerify (checker : BaseSignatureChecker) (flags : Flags) :
    Still (checkSequenceVerify checker flags) := by
  unfold checkSequenceVerify
  split_ifs
  · exact (still_require _ _).bind fun _ => (still_stacktop _).bind fun _ =>
      (still_scriptNum flags _ _).bind fun _ => still_haltIf.bind fun _ => still_doIf still_haltIf
  · exact still_haltIf

/-! ## Two runs -/

theorem refines_failIf {c d : Prop} [Decidable c] [Decidable d] {e e' : ScriptError}
    (h : d → c) : Refines (failIf c e) (failIf d e') := refines_haltIf h

section

variable {f g : Flags} (hfg : Softer f g)
include hfg

/-- A number that has to be minimal. -/
theorem scriptNum_refines (vch : Bytes) (k : ℕ) :
    Refines (scriptNum g vch k) (scriptNum f vch k) :=
  (Refines.refl _).bind fun _ => Refines.bind
    (refines_haltIf fun h => ⟨hfg.subset.has h.1, h.2⟩) fun _ => Refines.refl _

theorem notEnabled_refines : Refines (notEnabled g) (notEnabled f) :=
  refines_haltIf fun h => hfg.subset.has h

theorem checkLockTimeVerify_refines (checker : BaseSignatureChecker) :
    Refines (checkLockTimeVerify checker g) (checkLockTimeVerify checker f) := by
  by_cases hf : f.has verifyCheckLockTimeVerify
  · -- both check the lock time
    unfold checkLockTimeVerify
    rw [if_neg (not_not.mpr hf), if_neg (not_not.mpr (hfg.subset.has hf))]
    exact (Refines.refl _).bind fun _ => (Refines.refl _).bind fun _ =>
      (scriptNum_refines hfg _ _).bind fun _ => Refines.refl _
  · by_cases hg : g.has verifyCheckLockTimeVerify
    · -- only the larger set does, and the other does not mind a `NOP`
      have hquiet : ¬ f.has verifyDiscourageUpgradableNops := fun h => by
        rw [hfg.lockTime h] at hf
        exact hf hg
      have hpure : checkLockTimeVerify checker f = pure () := by
        rw [checkLockTimeVerify, if_pos hf, notEnabled, failIf, haltIf, doIf, if_neg hquiet]
      rw [hpure]
      exact (still_checkLockTimeVerify checker g).refines_pure
    · unfold checkLockTimeVerify
      rw [if_pos hf, if_pos hg]
      exact notEnabled_refines hfg

theorem checkSequenceVerify_refines (checker : BaseSignatureChecker) :
    Refines (checkSequenceVerify checker g) (checkSequenceVerify checker f) := by
  by_cases hf : f.has verifyCheckSequenceVerify
  · unfold checkSequenceVerify
    rw [if_neg (not_not.mpr hf), if_neg (not_not.mpr (hfg.subset.has hf))]
    exact (Refines.refl _).bind fun _ => (Refines.refl _).bind fun _ =>
      (scriptNum_refines hfg _ _).bind fun _ => Refines.refl _
  · by_cases hg : g.has verifyCheckSequenceVerify
    · have hquiet : ¬ f.has verifyDiscourageUpgradableNops := fun h => by
        rw [hfg.sequence h] at hf
        exact hf hg
      have hpure : checkSequenceVerify checker f = pure () := by
        rw [checkSequenceVerify, if_pos hf, notEnabled, failIf, haltIf, doIf, if_neg hquiet]
      rw [hpure]
      exact (still_checkSequenceVerify checker g).refines_pure
    · unfold checkSequenceVerify
      rw [if_pos hf, if_pos hg]
      exact notEnabled_refines hfg

theorem checkSignatureEncoding_refines (crypto : Crypto) (vchSig : Bytes) :
    Refines (checkSignatureEncoding crypto g vchSig) (checkSignatureEncoding crypto f vchSig) := by
  have htype : checkHashType g vchSig = checkHashType f vchSig := by
    unfold checkHashType
    rw [hfg.forkId]
  unfold checkSignatureEncoding
  rw [htype]
  refine refines_doIf id ?_ ?_
  · exact (refines_doIf (fun h => hfg.subset.has h) (Refines.refl _)
        (still_requireValidEncoding vchSig)).bind fun _ =>
      (refines_doIf (fun h => hfg.subset.has h) (Refines.refl _)
        (still_isLowDERSignature crypto vchSig)).bind fun _ =>
      refines_doIf (fun h => hfg.subset.has h) (Refines.refl _) (still_checkHashType f vchSig)
  · exact (still_doIf (still_requireValidEncoding vchSig)).bind fun _ =>
      (still_doIf (still_isLowDERSignature crypto vchSig)).bind fun _ =>
      still_doIf (still_checkHashType f vchSig)

theorem checkPubKeyEncoding_refines (vchPubKey : Bytes) :
    Refines (checkPubKeyEncoding g vchPubKey) (checkPubKeyEncoding f vchPubKey) :=
  refines_haltIf fun h => ⟨hfg.subset.has h.1, h.2⟩

theorem cleanupScriptCode_eq (scriptCode : CScript) (vchSig : Bytes) :
    cleanupScriptCode g scriptCode vchSig = cleanupScriptCode f scriptCode vchSig := by
  unfold cleanupScriptCode
  rw [hfg.forkId]

theorem dropSignatures_eq (k : ℕ) (isig : ℤ) (scriptCode : CScript) :
    dropSignatures g k isig scriptCode = dropSignatures f k isig scriptCode := by
  induction k generalizing isig scriptCode with
  | zero => rfl
  | succ k ih =>
    rw [dropSignatures, dropSignatures]
    simp only [cleanupScriptCode_eq hfg, ih]

variable {checker : BaseSignatureChecker} (hchecker : ForkIdOnly checker)
include hchecker

theorem checkSig_eq (vchSig vchPubKey : Bytes) (scriptCode : CScript) :
    checkSig checker g vchSig vchPubKey scriptCode
      = checkSig checker f vchSig vchPubKey scriptCode := by
  unfold checkSig
  rw [hchecker vchSig vchPubKey scriptCode f g hfg.forkId]

theorem checkSigOp_refines (crypto : Crypto) (opcode : Opcode) :
    Refines (checkSigOp crypto checker g opcode) (checkSigOp crypto checker f opcode) := by
  refine (Refines.refl _).bind fun _ => (Refines.refl _).bind fun vchSig => ?_
  refine (Refines.refl _).bind fun vchPubKey => ?_
  refine (checkSignatureEncoding_refines hfg crypto vchSig).bind fun _ => ?_
  refine (checkPubKeyEncoding_refines hfg vchPubKey).bind fun _ => (Refines.refl _).bind fun m => ?_
  rw [cleanupScriptCode_eq hfg, checkSig_eq hfg hchecker]
  refine (Refines.refl _).bind fun fSuccess => Refines.bind ?_ fun _ => Refines.refl _
  exact refines_haltIf fun h => ⟨h.1, hfg.subset.has h.2.1, h.2.2⟩

theorem matchSignatures_refines (crypto : Crypto) (scriptCode : CScript) (fuel : ℕ)
    (isig ikey nSigs nKeys : ℤ) :
    Refines (matchSignatures crypto checker g scriptCode fuel isig ikey nSigs nKeys)
      (matchSignatures crypto checker f scriptCode fuel isig ikey nSigs nKeys) := by
  induction fuel generalizing isig ikey nSigs nKeys with
  | zero => exact Refines.refl _
  | succ fuel ih =>
    refine Refines.ite (fun _ => ?_) fun _ => Refines.refl _
    refine (Refines.refl _).bind fun vchSig => (Refines.refl _).bind fun vchPubKey => ?_
    refine (checkSignatureEncoding_refines hfg crypto vchSig).bind fun _ => ?_
    refine (checkPubKeyEncoding_refines hfg vchPubKey).bind fun _ => ?_
    rw [checkSig_eq hfg hchecker]
    exact (Refines.refl _).bind fun _ => Refines.ite (fun _ => Refines.refl _) fun _ => ih _ _ _ _

omit hchecker

theorem dropArguments_refines (fSuccess : Bool) (k : ℕ) (ikey2 : ℤ) :
    Refines (dropArguments g fSuccess k ikey2) (dropArguments f fSuccess k ikey2) := by
  induction k generalizing ikey2 with
  | zero => exact Refines.refl _
  | succ k ih =>
    refine Refines.bind ?_ fun _ => (Refines.refl _).bind fun _ => ih _
    exact refines_doIf (fun h => ⟨h.1, hfg.subset.has h.2.1, h.2.2⟩) (Refines.refl _)
      ((still_stacktop _).bind fun _ => still_haltIf)

theorem readKeysCount_refines : Refines (readKeysCount g) (readKeysCount f) :=
  (Refines.refl _).bind fun _ => (Refines.refl _).bind fun _ => (Refines.refl _).bind fun _ =>
    (scriptNum_refines hfg _ _).bind fun _ => Refines.refl _

theorem readSigsCount_refines (nKeys : ℤ) :
    Refines (readSigsCount g nKeys) (readSigsCount f nKeys) :=
  (Refines.refl _).bind fun _ => (Refines.refl _).bind fun _ => (Refines.refl _).bind fun _ =>
    (scriptNum_refines hfg _ _).bind fun _ => Refines.refl _

theorem checkDummy_refines : Refines (checkDummy g) (checkDummy f) :=
  (Refines.refl _).bind fun _ => refines_doIf (fun h => hfg.subset.has h) (Refines.refl _)
    ((still_stacktop _).bind fun _ => still_haltIf)

include hchecker

theorem checkMultiSig_refines (crypto : Crypto) (opcode : Opcode) :
    Refines (checkMultiSig crypto checker g opcode) (checkMultiSig crypto checker f opcode) := by
  refine (readKeysCount_refines hfg).bind fun nKeys => ?_
  refine (readSigsCount_refines hfg nKeys).bind fun nSigs => ?_
  refine Refines.bind ?_ fun fSuccess => ?_
  · refine (Refines.refl _).bind fun m => ?_
    rw [dropSignatures_eq hfg]
    exact (Refines.refl _).bind fun scriptCode =>
      matchSignatures_refines hfg hchecker crypto scriptCode _ _ _ _ _
  · exact (dropArguments_refines hfg fSuccess _ _).bind fun _ =>
      (checkDummy_refines hfg).bind fun _ => Refines.refl _

/-- **One case of the `switch`.** -/
theorem exec_refines (crypto : Crypto) (fExec : Bool) (opcode : Opcode) (c : Case) :
    Refines (exec crypto checker g fExec opcode c) (exec crypto checker f fExec opcode c) := by
  have hnum := scriptNum_refines hfg
  cases c with
  | checkLockTimeVerify => exact checkLockTimeVerify_refines hfg checker
  | checkSequenceVerify => exact checkSequenceVerify_refines hfg checker
  | upgradableNop => exact notEnabled_refines hfg
  | pickOrRoll =>
    exact (Refines.refl _).bind fun _ => (Refines.refl _).bind fun _ =>
      (hnum _ _).bind fun _ => Refines.refl _
  | unary =>
    exact (Refines.refl _).bind fun _ => (Refines.refl _).bind fun _ =>
      (hnum _ _).bind fun _ => Refines.refl _
  | binary =>
    exact (Refines.refl _).bind fun _ => (Refines.refl _).bind fun _ =>
      (hnum _ _).bind fun _ => (Refines.refl _).bind fun _ => (hnum _ _).bind fun _ =>
      Refines.refl _
  | within =>
    exact (Refines.refl _).bind fun _ => (Refines.refl _).bind fun _ =>
      (hnum _ _).bind fun _ => (Refines.refl _).bind fun _ => (hnum _ _).bind fun _ =>
      (Refines.refl _).bind fun _ => (hnum _ _).bind fun _ => Refines.refl _
  | checkSig => exact checkSigOp_refines hfg hchecker crypto opcode
  | checkMultiSig => exact checkMultiSig_refines hfg hchecker crypto opcode
  | split =>
    exact (Refines.refl _).bind fun _ => (Refines.refl _).bind fun _ =>
      (Refines.refl _).bind fun _ => (hnum _ _).bind fun _ => Refines.refl _
  | num2bin =>
    exact (Refines.refl _).bind fun _ => (Refines.refl _).bind fun _ =>
      (hnum _ _).bind fun _ => Refines.refl _
  | _ => exact Refines.refl _

theorem step_refines (crypto : Crypto) :
    Refines (step crypto checker g) (step crypto checker f) := by
  refine (Refines.refl _).bind fun m => ?_
  split
  · exact Refines.refl _
  · rename_i opcode vch pc _
    refine (Refines.refl _).bind fun _ => ?_
    refine (Refines.refl _).bind fun _ => (Refines.refl _).bind fun _ => ?_
    refine (Refines.refl _).bind fun _ => Refines.bind ?_ fun _ => Refines.refl _
    refine Refines.ite (fun _ => ?_) fun _ => Refines.ite (fun _ => ?_) fun _ => Refines.refl _
    · exact Refines.bind (refines_haltIf fun h => ⟨hfg.subset.has h.1, h.2⟩) fun _ =>
        Refines.refl _
    · exact exec_refines hfg hchecker crypto m.fExec opcode _

theorem evalLoop_refines (crypto : Crypto) (fuel : ℕ) :
    Refines (evalLoop crypto checker g fuel) (evalLoop crypto checker f fuel) := by
  induction fuel with
  | zero => exact Refines.refl _
  | succ fuel ih =>
    refine (Refines.refl _).bind fun m => Refines.ite (fun _ => Refines.refl _) fun _ => ?_
    exact (step_refines hfg hchecker crypto).bind fun _ => ih

/-- **A whole evaluation.** -/
theorem evalScript_refines (crypto : Crypto) (script : CScript) :
    Refines (evalScript crypto checker g script) (evalScript crypto checker f script) := by
  refine (Refines.refl _).bind fun _ => (Refines.refl _).bind fun _ => Refines.bind ?_ fun _ =>
    Refines.refl _
  intro m a m' h
  unfold catchAll at h ⊢
  cases hrun : evalLoop crypto checker g script.length m with
  | error h' m₁ =>
    rw [hrun] at h
    cases h
  | ok b m₁ =>
    rw [hrun] at h
    rw [evalLoop_refines hfg hchecker crypto script.length m b m₁ hrun]
    exact h

theorem verifyScriptHash_refines (crypto : Crypto) (scriptSig : CScript) (stackCopy : List Bytes) :
    Refines (verifyScriptHash crypto checker g scriptSig stackCopy)
      (verifyScriptHash crypto checker f scriptSig stackCopy) :=
  (Refines.refl _).bind fun _ => (Refines.refl _).bind fun _ => (Refines.refl _).bind fun _ =>
    (Refines.refl _).bind fun _ => (evalScript_refines hfg hchecker crypto _).bind fun _ =>
      Refines.refl _

/-- **A whole verification**, with the flags that `VerifyScript` works with. -/
theorem verifyWith_of_softer (crypto : Crypto) (scriptSig scriptPubKey : CScript) (m : Machine)
    (hclean : f.has verifyCleanStack → f.has verifyP2SH)
    (h : ∃ m', verifyWith crypto checker g scriptSig scriptPubKey m = .ok () m') :
    ∃ m', verifyWith crypto checker f scriptSig scriptPubKey m = .ok () m' := by
  obtain ⟨m', h⟩ := h
  obtain ⟨_, m₁, h₁, hrest₁⟩ := exists_of_bind_eq_ok h
  obtain ⟨_, m₂, h₂, hrest₂⟩ := exists_of_bind_eq_ok hrest₁
  obtain ⟨_, m₃, h₃, hrest₃⟩ := exists_of_bind_eq_ok hrest₂
  obtain ⟨m₀, m₄, h₄, hrest₄⟩ := exists_of_bind_eq_ok hrest₃
  obtain ⟨_, m₅, h₅, hrest₅⟩ := exists_of_bind_eq_ok hrest₄
  obtain ⟨_, m₆, h₆, hrest₆⟩ := exists_of_bind_eq_ok hrest₅
  obtain ⟨_, m₇, h₇, h₈⟩ := exists_of_bind_eq_ok hrest₆
  -- the two runs agree up to the test of the top
  have hpush : failIf (f.has verifySigPushOnly ∧ ¬ CScript.isPushOnly scriptSig) .sigPushOnly m
      = .ok () m₁ :=
    refines_failIf (fun h => ⟨hfg.subset.has h.1, h.2⟩) _ _ _ h₁
  have hsig := evalScript_refines hfg hchecker crypto scriptSig _ _ _ h₃
  have hpub := evalScript_refines hfg hchecker crypto scriptPubKey _ _ _ h₅
  have hend : ∃ m', (doIf (f.has verifyP2SH ∧ CScript.isPayToScriptHash scriptPubKey)
      (verifyScriptHash crypto checker f scriptSig m₀.stack) >>= fun _ =>
        doIf (f.has verifyCleanStack) (requireCleanStack f)) m₆ = .ok () m' := by
    by_cases hp2sh : f.has verifyP2SH
    · -- both look at the script hash
      have hg := hfg.subset.has hp2sh
      have hhash : doIf (f.has verifyP2SH ∧ CScript.isPayToScriptHash scriptPubKey)
          (verifyScriptHash crypto checker f scriptSig m₀.stack) m₆ = .ok () m₇ := by
        unfold doIf at h₇ ⊢
        by_cases hpay : CScript.isPayToScriptHash scriptPubKey
        · rw [if_pos ⟨hg, hpay⟩] at h₇
          rw [if_pos ⟨hp2sh, hpay⟩]
          exact verifyScriptHash_refines hfg hchecker crypto scriptSig m₀.stack _ _ _ h₇
        · rw [if_neg fun h => hpay h.2] at h₇
          rw [if_neg fun h => hpay h.2]
          exact h₇
      rw [bind_apply_ok hhash]
      have hclean' : Refines (requireCleanStack g) (requireCleanStack f) :=
        Refines.bind (refines_haltIf fun h => absurd hp2sh h) fun _ => Refines.refl _
      have hstill : Still (requireCleanStack g) :=
        still_haltIf.bind fun _ => still_get.bind fun _ => still_haltIf
      exact ⟨m', refines_doIf (fun h => hfg.subset.has h) hclean' hstill _ _ _ h₈⟩
    · -- without the script hash, the stack need not be clean
      refine ⟨m₆, ?_⟩
      unfold doIf
      rw [if_neg fun h => hp2sh h.1, if_neg fun h => hp2sh (hclean h)]
      rfl
  obtain ⟨m'', hend⟩ := hend
  refine ⟨m'', ?_⟩
  unfold verifyWith
  rw [bind_apply_ok hpush, bind_apply_ok h₂, bind_apply_ok hsig, bind_apply_ok h₄,
    bind_apply_ok hpub, bind_apply_ok h₆]
  exact hend

end

/-! ## Strict encoding -/

theorem Flags.has_or_of_disjoint {x y bit : Flags} (h : y &&& bit = 0) :
    Flags.has (x ||| y) bit = Flags.has x bit := by
  have hdistrib : (x ||| y) &&& bit = (x &&& bit) ||| (y &&& bit) :=
    UInt32.eq_of_toBitVec_eq BitVec.and_or_distrib_right
  rw [Flags.has, Flags.has, hdistrib, h, UInt32.or_zero]

theorem Flags.Subset.or {f g : Flags} (h : f.Subset g) (s : Flags) :
    Flags.Subset (f ||| s) (g ||| s) := by
  have hdistrib : (f ||| s) &&& (g ||| s) = (f &&& g) ||| s := by
    apply UInt32.toNat_inj.mp
    simp only [UInt32.toNat_and, UInt32.toNat_or]
    exact (Nat.or_and_distrib_right _ _ _).symm
  unfold Flags.Subset
  rw [hdistrib, h]

/-- The flags that `VerifyScript` works with. -/
theorem softer_withStrictEnc {f g : Flags} (h : Softer f g) :
    Softer (withStrictEnc f) (withStrictEnc g) := by
  unfold withStrictEnc
  rw [← h.forkId]
  split_ifs with hfork
  · refine ⟨h.subset.or _, ?_, ?_, ?_⟩
    · rw [Flags.has_or_of_disjoint (by decide), Flags.has_or_of_disjoint (by decide)]
      exact h.forkId
    · rw [Flags.has_or_of_disjoint (by decide), Flags.has_or_of_disjoint (by decide),
        Flags.has_or_of_disjoint (by decide)]
      exact h.lockTime
    · rw [Flags.has_or_of_disjoint (by decide), Flags.has_or_of_disjoint (by decide),
        Flags.has_or_of_disjoint (by decide)]
      exact h.sequence
  · exact h

/-- Strict encoding is no other flag. -/
theorem has_withStrictEnc {f bit : Flags} (h : verifyStrictEnc &&& bit = 0) :
    (withStrictEnc f).has bit = f.has bit := by
  unfold withStrictEnc
  split_ifs
  · exact Flags.has_or_of_disjoint h
  · rfl

/-! ## The flags as soft forks -/

/-- `VerifyScript` succeeds. -/
def Verifies (crypto : Crypto) (checker : BaseSignatureChecker) (flags : Flags)
    (scriptSig scriptPubKey : CScript) : Prop :=
  ∃ m, verifyScript crypto checker flags scriptSig scriptPubKey {} = .ok () m

/-- **Verification flags are soft forks.**  What `VerifyScript` accepts under the flags `g`, it
accepts under fewer flags `f` with the same fork id, where the smaller set does not discourage an
operation as a `NOP` that the larger one enables. -/
theorem verifyScript_of_softer (crypto : Crypto) {checker : BaseSignatureChecker}
    (scriptSig scriptPubKey : CScript) {f g : Flags} (hchecker : ForkIdOnly checker)
    (hsubset : f.Subset g) (hfork : f.has enableSigHashForkId = g.has enableSigHashForkId)
    (hclean : f.has verifyCleanStack → f.has verifyP2SH)
    (hnops : f.has verifyDiscourageUpgradableNops →
      f.has verifyCheckLockTimeVerify = g.has verifyCheckLockTimeVerify ∧
      f.has verifyCheckSequenceVerify = g.has verifyCheckSequenceVerify)
    (h : Verifies crypto checker g scriptSig scriptPubKey) :
    Verifies crypto checker f scriptSig scriptPubKey := by
  have hsofter : Softer f g := ⟨hsubset, hfork, fun h => (hnops h).1, fun h => (hnops h).2⟩
  refine verifyWith_of_softer (softer_withStrictEnc hsofter) hchecker crypto scriptSig
    scriptPubKey {} ?_ h
  rw [has_withStrictEnc (by decide), has_withStrictEnc (by decide)]
  exact hclean

/-- A checker that accepts every lock time. -/
def lockTimeChecker : BaseSignatureChecker where
  checkSig _ _ _ _ := false
  checkLockTime _ := true
  checkSequence _ := true

/-- A lock time of 1 is checked by the larger set of flags only. -/
theorem verifyScript_of_softer_lockTime :
    Verifies nullCrypto lockTimeChecker verifyP2SH [op1] [opCheckLockTimeVerify] :=
  verifyScript_of_softer nullCrypto [op1] [opCheckLockTimeVerify]
    (g := verifyP2SH ||| verifyCheckLockTimeVerify ||| verifyMinimalData)
    (fun _ _ _ _ _ _ => rfl) (by decide) (by decide) (by decide) (by decide) ⟨_, rfl⟩

/-- Flags that discourage `NOP`s refuse a lock time that is not enabled: enabling it turns the
failure into a success. -/
theorem not_verifyScript_of_subset :
    ¬ ∀ (crypto : Crypto) (checker : BaseSignatureChecker) (scriptSig scriptPubKey : CScript)
      (f g : Flags), ForkIdOnly checker → f.Subset g →
      f.has enableSigHashForkId = g.has enableSigHashForkId →
      (f.has verifyCleanStack → f.has verifyP2SH) → (g.has verifyCleanStack → g.has verifyP2SH) →
      Verifies crypto checker g scriptSig scriptPubKey →
      Verifies crypto checker f scriptSig scriptPubKey := by
  intro h
  obtain ⟨m, hm⟩ := h nullCrypto lockTimeChecker [op1] [opCheckLockTimeVerify]
    verifyDiscourageUpgradableNops (verifyDiscourageUpgradableNops ||| verifyCheckLockTimeVerify)
    (fun _ _ _ _ _ _ => rfl) (by decide) (by decide) (by decide) (by decide) ⟨_, rfl⟩
  cases hm

end Script
