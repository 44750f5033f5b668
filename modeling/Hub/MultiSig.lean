/-
# Signatures of several keys

`OP_CHECKMULTISIG` with its arguments on the stack (`libs/server/script/interpreter.cpp`).

The loop walks along the signatures and the keys from the top of the stack, which is the greedy walk
of `GreedyMatching.greedy` (`matchSignatures_apply`).  It succeeds when the signatures can be sent
to keys that accept them in the order of the script.
-/
import Hub.GreedyMatching
import Hub.StackOps

open ByteCodec Opcode Bytes Halting CScriptNum GreedyMatching

namespace Script

/-- The element below the first `p` elements of a stack. -/
theorem at?_of_drop {stack rest : List Bytes} {p : ℕ} {vch : Bytes}
    (h : stack.drop p = vch :: rest) : at? stack (-((p : ℤ) + 1)) = some vch := by
  have hindex : (-(-((p : ℤ) + 1)) - 1).toNat = p := by omega
  have hget : stack[p]? = some vch := by
    rw [← List.head?_drop, h]
    rfl
  rw [at?, if_pos (by omega), hindex, hget]

theorem drop_succ_of_drop {stack rest : List Bytes} {p : ℕ} {vch : Bytes}
    (h : stack.drop p = vch :: rest) : stack.drop (p + 1) = rest := by
  rw [← List.drop_drop, h]
  rfl

section

variable (crypto : Crypto) (checker : BaseSignatureChecker) (flags : Flags)
variable {m : Machine} {p q : ℕ} {ss ks S K : List Bytes}

/-- The element is a signature that the flags let pass. -/
def PassesSignature (vchSig : Bytes) : Prop :=
  ∀ m, checkSignatureEncoding crypto flags vchSig m = .ok () m

/-- The element is a key that the flags let pass. -/
def PassesPubKey (vchPubKey : Bytes) : Prop :=
  ∀ m, checkPubKeyEncoding flags vchPubKey m = .ok () m

/-! ## The loops -/

/-- All signatures are taken out of the script, from the top of the stack. -/
theorem dropSignatures_apply (scriptCode : CScript) {isig : ℤ} (hss : m.stack.drop p = ss ++ S)
    (hisig : isig = p + 1) : dropSignatures flags ss.length isig scriptCode m =
      .ok (ss.foldl (cleanupScriptCode flags) scriptCode) m := by
  induction ss generalizing p isig scriptCode with
  | nil => rfl
  | cons s ss ih =>
    subst hisig
    rw [List.length_cons, dropSignatures, bind_apply_ok (stacktop_apply (at?_of_drop hss))]
    exact ih _ (drop_succ_of_drop hss) rfl

/-- **The loop is the greedy walk.**  It is at the signatures `ss` and the keys `ks`; one key less is
left after each round. -/
theorem matchSignatures_apply (scriptCode : CScript) {isig ikey nSigs nKeys : ℤ}
    (hsig : ∀ s ∈ ss, PassesSignature crypto flags s) (hkey : ∀ k ∈ ks, PassesPubKey flags k)
    (hss : m.stack.drop p = ss ++ S) (hks : m.stack.drop q = ks ++ K) (hle : ss.length ≤ ks.length)
    (hisig : isig = p + 1) (hikey : ikey = q + 1) (hnSigs : nSigs = ss.length)
    (hnKeys : nKeys = ks.length) :
    ∃ n, matchSignatures crypto checker flags scriptCode ks.length isig ikey nSigs nKeys m =
      .ok (greedy (fun s k => checker.checkSig s k scriptCode flags) ss ks)
        { m with checkSigs := n } := by
  induction ks generalizing ss p q m isig ikey nSigs nKeys with
  | nil =>
    have hnil : ss = [] := List.length_eq_zero_iff.mp (Nat.le_zero.mp hle)
    subst hnil hnSigs
    exact ⟨m.checkSigs, rfl⟩
  | cons k ks ih =>
    cases ss with
    | nil =>
      subst hnSigs
      exact ⟨m.checkSigs, rfl⟩
    | cons s ss =>
      rw [List.length_cons] at hnSigs hnKeys
      push_cast at hnSigs hnKeys
      have hkey' : ∀ k ∈ ks, PassesPubKey flags k := fun k hk => hkey k (List.mem_cons_of_mem _ hk)
      subst hisig hikey
      rw [List.length_cons, matchSignatures, if_pos (by omega),
        bind_apply_ok (stacktop_apply (at?_of_drop hss)),
        bind_apply_ok (stacktop_apply (at?_of_drop hks)),
        bind_apply_ok (hsig s (List.mem_cons_self ..) m),
        bind_apply_ok (hkey k (List.mem_cons_self ..) m), checkSig, bind_assoc,
        bind_apply_ok (modify_apply _ m), bind_apply_ok (pure_apply _ _), greedy]
      -- the signature stays for the next key, unless this one accepts it
      cases hok : checker.checkSig s k scriptCode flags with
      | false =>
        simp only [Bool.false_eq_true, if_false]
        by_cases hlen : (s :: ss).length > ks.length
        · rw [if_pos hlen, if_pos (by rw [List.length_cons] at hlen; omega)]
          exact ⟨_, rfl⟩
        · rw [if_neg hlen, if_neg (by rw [List.length_cons] at hlen; omega)]
          exact ih (m := { m with checkSigs := m.checkSigs + 1 }) (q := q + 1) hsig hkey' hss
            (drop_succ_of_drop hks) (Nat.le_of_not_lt hlen) rfl rfl hnSigs (by omega)
      | true =>
        simp only [if_true]
        have hlen : ss.length ≤ ks.length := by
          rw [List.length_cons, List.length_cons] at hle
          omega
        rw [if_neg (by omega), if_neg (by omega)]
        exact ih (m := { m with checkSigs := m.checkSigs + 1 }) (p := p + 1) (q := q + 1)
          (fun s hs => hsig s (List.mem_cons_of_mem _ hs)) hkey' (drop_succ_of_drop hss)
          (drop_succ_of_drop hks) hlen rfl rfl (by omega) (by omega)

/-- Without `NULLFAIL` the arguments go off the stack unseen. -/
theorem dropArguments_apply {top rest : List Bytes} (hnull : flags.has verifyNullFail = false)
    (fSuccess : Bool) (ikey2 : ℤ) (h : m.stack = top ++ rest) :
    dropArguments flags fSuccess top.length ikey2 m = .ok () { m with stack := rest } := by
  induction top generalizing m ikey2 with
  | nil =>
    rw [List.nil_append] at h
    subst h
    rfl
  | cons vch top ih =>
    have hskip : ¬ (¬ fSuccess = true ∧ flags.has verifyNullFail = true ∧ ikey2 = 0) := by
      rw [hnull]
      simp
    rw [List.length_cons, dropArguments, doIf, if_neg hskip, bind_apply_ok (pure_apply _ _),
      bind_apply_ok (popstack_apply h), ih _ rfl]

/-! ## The arguments -/

/-- The arguments of `OP_CHECKMULTISIG`, with the signatures and the keys in the order of the
script: `dummy sigs… nSigsCount keys… nKeysCount`. -/
structure MultiSigArguments (sigs keys stack : List Bytes) : Prop where
  counts : sigs.length ≤ keys.length ∧ keys.length ≤ 20
  onStack : ∃ nKeysCount nSigsCount dummy rest,
    stack = nKeysCount :: (keys.reverse ++ nSigsCount :: (sigs.reverse ++ dummy :: rest)) ∧
      ofVch nKeysCount (flags.has verifyMinimalData) 4 = .ok ⟨keys.length⟩ ∧
      ofVch nSigsCount (flags.has verifyMinimalData) 4 = .ok ⟨sigs.length⟩

theorem intSize_apply (h : m.stack.length < 2 ^ 31) : intSize m = .ok m.stack.length m := by
  rw [intSize, bind_apply_ok (get_apply m), pure_apply, toInt32_of_lt (by omega) (by omega)]

theorem readKeysCount_apply {nKeysCount : Bytes} {rest : List Bytes} {n : ℕ}
    (hstack : m.stack = nKeysCount :: rest) (hsize : m.stack.length < 2 ^ 31)
    (hn : ofVch nKeysCount (flags.has verifyMinimalData) 4 = .ok ⟨n⟩) (hle : n ≤ 20)
    (hops : m.nOpCount + n ≤ 201) :
    readKeysCount flags m = .ok n { m with nOpCount := m.nOpCount + n } := by
  have htop : at? m.stack (-1) = some nKeysCount := by
    rw [hstack]
    rfl
  have hlen : 0 < m.stack.length := by
    rw [hstack]
    exact Nat.succ_pos _
  have hnum : scriptNum flags nKeysCount defaultMaxNumSize m = .ok ⟨n⟩ m := scriptNum_apply hn
  rw [readKeysCount, bind_apply_ok (intSize_apply hsize), failIf,
    bind_apply_ok (haltIf_apply_of_neg (by omega) m), bind_apply_ok (stacktop_apply htop),
    bind_apply_ok hnum]
  rw [(getint_of_ofVch hn).1, failIf, bind_apply_ok (haltIf_apply_of_neg (by omega) m),
    Int.toNat_natCast, bind_apply_ok (modify_apply _ m), bind_apply_ok (get_apply _), failIf,
    bind_apply_ok (haltIf_apply_of_neg (Nat.not_lt.mpr hops) _), pure_apply]

theorem readSigsCount_apply {nSigsCount : Bytes} {rest : List Bytes} {n k : ℕ}
    (hstack : m.stack.drop (k + 1) = nSigsCount :: rest) (hsize : m.stack.length < 2 ^ 31)
    (hn : ofVch nSigsCount (flags.has verifyMinimalData) 4 = .ok ⟨n⟩) (hle : n ≤ k)
    (hrest : n < rest.length) : readSigsCount flags k m = .ok n m := by
  have hlen := congrArg List.length hstack
  rw [List.length_drop, List.length_cons] at hlen
  have htop : at? m.stack (-(2 + (k : ℤ))) = some nSigsCount := by
    have hat := at?_of_drop hstack
    push_cast at hat
    rwa [show -(2 + (k : ℤ)) = -((k : ℤ) + 1 + 1) from by omega]
  have hnum : scriptNum flags nSigsCount defaultMaxNumSize m = .ok ⟨n⟩ m := scriptNum_apply hn
  rw [readSigsCount, bind_apply_ok (intSize_apply hsize), failIf,
    bind_apply_ok (haltIf_apply_of_neg (by omega) m), bind_apply_ok (stacktop_apply htop),
    bind_apply_ok hnum]
  rw [(getint_of_ofVch hn).1, failIf, bind_apply_ok (haltIf_apply_of_neg (by omega) m),
    bind_apply_ok (intSize_apply hsize), failIf, bind_apply_ok (haltIf_apply_of_neg (by omega) m),
    pure_apply]

/-- The script is cleaned of the signatures before they are matched with the keys. -/
theorem matchAll_apply {sigs keys S K : List Bytes} (hle : sigs.length ≤ keys.length)
    (hsig : ∀ s ∈ sigs, PassesSignature crypto flags s) (hkey : ∀ k ∈ keys, PassesPubKey flags k)
    (hss : m.stack.drop (keys.length + 2) = sigs.reverse ++ S)
    (hks : m.stack.drop 1 = keys.reverse ++ K) :
    ∃ n, matchAll crypto checker flags keys.length sigs.length m =
      .ok (greedy (fun s k => checker.checkSig s k
          (sigs.reverse.foldl (cleanupScriptCode flags) m.pbegincodehash) flags)
        sigs.reverse keys.reverse) { m with checkSigs := n } := by
  have hisig : 3 + (keys.length : ℤ) = (keys.length + 2 : ℕ) + 1 := by
    push_cast
    omega
  have hclean : dropSignatures flags sigs.length (3 + keys.length) m.pbegincodehash m =
      .ok (sigs.reverse.foldl (cleanupScriptCode flags) m.pbegincodehash) m := by
    have happly := dropSignatures_apply flags m.pbegincodehash hss hisig
    rwa [List.length_reverse] at happly
  have hnSigs : (sigs.length : ℤ) = sigs.reverse.length := by rw [List.length_reverse]
  have hnKeys : (keys.length : ℤ) = keys.reverse.length := by rw [List.length_reverse]
  obtain ⟨n, hn⟩ := matchSignatures_apply crypto checker flags
    (sigs.reverse.foldl (cleanupScriptCode flags) m.pbegincodehash)
    (fun s hs => hsig s (List.mem_reverse.mp hs)) (fun k hk => hkey k (List.mem_reverse.mp hk))
    hss hks (by rwa [List.length_reverse, List.length_reverse]) hisig rfl hnSigs hnKeys
  rw [List.length_reverse] at hn
  rw [matchAll, bind_apply_ok (get_apply m), Int.toNat_natCast, bind_apply_ok hclean]
  exact ⟨n, hn⟩

/-- `OP_CHECKMULTISIG`, in an instruction that is executed. -/
theorem execInstruction_checkMultiSig :
    execInstruction crypto checker flags true opCheckMultiSig [] =
      checkMultiSig crypto checker flags opCheckMultiSig := by
  rw [execInstruction, if_neg fun h => absurd h.2 (by decide), if_pos (.inl rfl)]
  rfl

/-- **`OP_CHECKMULTISIG` decides matching.**  It pushes true when the signatures can be sent, in the
order of the script, to keys that accept them, and takes its arguments off the stack either way. -/
theorem checkMultiSig_matches {sigs keys : List Bytes}
    (hargs : MultiSigArguments flags sigs keys m.stack) (hsize : m.stack.length < 2 ^ 31)
    (hops : m.nOpCount + keys.length ≤ 201) (hsig : ∀ s ∈ sigs, PassesSignature crypto flags s)
    (hkey : ∀ k ∈ keys, PassesPubKey flags k) (hfail : flags.has verifyNullFail = false)
    (hdummy : flags.has verifyNullDummy = false) :
    ∃ m' fSuccess, execInstruction crypto checker flags true opCheckMultiSig [] m = .ok () m' ∧
      m'.stack = vchOf fSuccess :: m.stack.drop (sigs.length + keys.length + 3) ∧
      (fSuccess = true ↔ ∃ f : Fin sigs.length → Fin keys.length, StrictMono f ∧
        ∀ i, checker.checkSig (sigs.get i) (keys.get (f i))
          (sigs.reverse.foldl (cleanupScriptCode flags) m.pbegincodehash) flags = true) := by
  obtain ⟨⟨hle, hle20⟩, nk, ns, dummy, rest, hstack, hnk, hns⟩ := hargs
  have hkeys : m.stack.drop 1 = keys.reverse ++ ns :: (sigs.reverse ++ dummy :: rest) := by
    rw [hstack]
    rfl
  have hcount : m.stack.drop (keys.length + 1) = ns :: (sigs.reverse ++ dummy :: rest) := by
    rw [Nat.add_comm, ← List.drop_drop, hkeys]
    exact List.drop_left' (List.length_reverse ..)
  have hsigs : m.stack.drop (keys.length + 2) = sigs.reverse ++ dummy :: rest :=
    drop_succ_of_drop hcount
  have hlast : m.stack.drop (sigs.length + keys.length + 2) = dummy :: rest := by
    rw [show sigs.length + keys.length + 2 = keys.length + 2 + sigs.length from by omega,
      ← List.drop_drop, hsigs]
    exact List.drop_left' (List.length_reverse ..)
  have hrest : m.stack.drop (sigs.length + keys.length + 3) = rest := drop_succ_of_drop hlast
  obtain ⟨n, hn⟩ := matchAll_apply (m := { m with nOpCount := m.nOpCount + keys.length }) crypto
    checker flags hle hsig hkey hsigs hkeys
  have hiff := greedy_iff (fun s k => checker.checkSig s k
    (sigs.reverse.foldl (cleanupScriptCode flags) m.pbegincodehash) flags) sigs keys
  generalize hgreedy : greedy (fun s k => checker.checkSig s k
    (sigs.reverse.foldl (cleanupScriptCode flags) m.pbegincodehash) flags) sigs.reverse keys.reverse =
      fSuccess at hn hiff
  refine ⟨{ m with
    stack := vchOf fSuccess :: rest, nOpCount := m.nOpCount + keys.length, checkSigs := n },
    fSuccess, ?_, by rw [hrest], hiff⟩
  have htop : (m.stack.take (sigs.length + keys.length + 2)).length =
      (2 + (keys.length : ℤ) + sigs.length).toNat := by
    have hlen := congrArg List.length hlast
    rw [List.length_drop, List.length_cons] at hlen
    rw [List.length_take]
    omega
  have hdrop := dropArguments_apply (m := { m with nOpCount := m.nOpCount + keys.length, checkSigs := n })
    flags hfail fSuccess (keys.length + 2)
    (List.take_append_drop (sigs.length + keys.length + 2) m.stack).symm
  rw [htop, hlast] at hdrop
  have hcounted := readSigsCount_apply (m := { m with nOpCount := m.nOpCount + keys.length }) flags
    hcount hsize hns hle (by simp)
  have hdummy' : checkDummy flags { m with
      stack := dummy :: rest, nOpCount := m.nOpCount + keys.length, checkSigs := n } =
      .ok () { m with stack := dummy :: rest, nOpCount := m.nOpCount + keys.length, checkSigs := n } := by
    rw [checkDummy, bind_apply_ok (require_apply (Nat.succ_pos _)), hdummy]
    rfl
  rw [execInstruction_checkMultiSig, checkMultiSig,
    bind_apply_ok (readKeysCount_apply flags hstack hsize hnk hle20 hops), checkMultiSigWith,
    bind_apply_ok hcounted, bind_apply_ok hn, bind_apply_ok hdrop, bind_apply_ok hdummy',
    bind_apply_ok (popstack_apply rfl)]
  rfl

end

/-- A checker that takes the key with the number of the signature. -/
def numberChecker : BaseSignatureChecker :=
  { baseChecker with
    checkSig := fun scriptSig vchPubKey _ _ => scriptSig.getD 1 0 == vchPubKey.getD 0 0 }

/-- Two of three keys: the second and the third accept the signatures. -/
theorem checkMultiSig_matches_twoOfThree :
    ∃ m' fSuccess, execInstruction nullCrypto numberChecker 0 true opCheckMultiSig []
        { stack := [[3], [3], [2], [1], [2], [0, 3], [0, 2], [], [7]] } = .ok () m' ∧
      m'.stack = vchOf fSuccess :: [[7]] ∧
      (fSuccess = true ↔ ∃ f : Fin 2 → Fin 3, StrictMono f ∧
        ∀ i, numberChecker.checkSig (([[0, 2], [0, 3]] : List Bytes).get i)
          (([[1], [2], [3]] : List Bytes).get (f i)) [] 0 = true) := by
  have hargs : MultiSigArguments 0 [[0, 2], [0, 3]] [[1], [2], [3]]
      [[3], [3], [2], [1], [2], [0, 3], [0, 2], [], [7]] :=
    ⟨by decide, [3], [2], [], [[7]], rfl, by decide, by decide⟩
  exact checkMultiSig_matches nullCrypto numberChecker 0
    (m := { stack := [[3], [3], [2], [1], [2], [0, 3], [0, 2], [], [7]] }) hargs (by decide) (by decide)
    (fun s _ _ => by cases s <;> rfl) (fun k _ _ => rfl) (by decide) (by decide)

end Script
