/-
# The instructions of a script, and `FindAndDelete`

`FindAndDelete` (`libs/server/script/script.h`) works on the bytes of a script: it erases its
pattern wherever it stands at the start of an instruction, and reads on with `GetOp`.  When the
pattern is a whole instruction, this takes out the instructions that are written as the pattern is,
and leaves all others in place (`findAndDelete_push`): the bytes of an instruction are read in the
same way whatever comes after them (`getOp_congr`), so that nothing shifts.
-/
import Hub.ScriptRoundTrip
import Mathlib.Data.List.Flatten

open ByteCodec Opcode Bytes

namespace Script

/-- The instructions of a script: the opcodes, and the bytes of each. -/
inductive Instructions : Bytes → List (Opcode × Bytes) → Prop where
  | nil : Instructions [] []
  | cons {pc vch rest bytes : Bytes} {opcode : Opcode} {l : List (Opcode × Bytes)} :
      CScript.getOp pc = some (opcode, vch, rest) → pc = bytes ++ rest → Instructions rest l →
      Instructions pc ((opcode, bytes) :: l)

theorem instructions_of_walk : ∀ (fuel : ℕ) (pc : Bytes), (CScript.walk fuel pc).isSome = true →
    ∃ l, Instructions pc l ∧ l.length ≤ fuel := by
  intro fuel
  induction fuel with
  | zero =>
    intro pc h
    cases pc with
    | nil => exact ⟨[], .nil, Nat.le_refl 0⟩
    | cons b pc => cases h
  | succ fuel ih =>
    intro pc h
    cases pc with
    | nil => exact ⟨[], .nil, Nat.zero_le _⟩
    | cons b pc =>
      rw [CScript.walk] at h
      · cases hop : CScript.getOp (b :: pc) with
        | none =>
          rw [hop] at h
          cases h
        | some r =>
          obtain ⟨opcode, vch, rest⟩ := r
          rw [hop] at h
          obtain ⟨l, hl, hlen⟩ := ih rest (by simpa using h)
          obtain ⟨size, hsize⟩ := CScript.exists_of_getOp hop
          exact ⟨(opcode, opcode :: size ++ vch) :: l, .cons hop hsize hl, by
            rw [List.length_cons]
            omega⟩
      · intro hnil
        cases hnil

/-- A script of which an instruction is read has less than `2 ^ 31` bytes. -/
theorem length_lt_of_getOp {pc : Bytes} {r : Opcode × Bytes × Bytes}
    (h : CScript.getOp pc = some r) (hlen : pc.length < 2 ^ 32) : pc.length < 2 ^ 31 := by
  cases pc with
  | nil => exact Nat.two_pow_pos 31
  | cons b pc =>
    by_contra hlarge
    have hneg : CScript.remaining (b :: pc) < 1 := by
      rw [CScript.remaining, toInt32, Int.bmod_def]
      omega
    rw [CScript.getOp, CScript.getOp2, if_pos hneg] at h
    cases h

/-- A script that is read to its end has less than `2 ^ 31` bytes. -/
theorem Instructions.length_lt {pc : Bytes} {l : List (Opcode × Bytes)} (h : Instructions pc l)
    (hlen : pc.length < 2 ^ 32) : pc.length < 2 ^ 31 := by
  cases h with
  | nil => exact Nat.two_pow_pos 31
  | cons hop _ _ => exact length_lt_of_getOp hop hlen

theorem Instructions.length_le {pc : Bytes} {l : List (Opcode × Bytes)} (h : Instructions pc l) :
    l.length ≤ pc.length := by
  induction h with
  | nil => exact Nat.le_refl 0
  | @cons pc vch rest bytes opcode l hop hpc hl ih =>
    have hlt := CScript.length_lt_of_getOp hop
    rw [List.length_cons]
    omega

/-! ## Instructions stand for themselves -/

/-- The three forms of an instruction. -/
theorem exists_form_of_getOp {pc vch rest : Bytes} {opcode : Opcode}
    (h : CScript.getOp pc = some (opcode, vch, rest)) :
    (opPushData4 < opcode ∧ vch = [] ∧ pc = opcode :: rest) ∨
      (opcode = UInt8.ofNat vch.length ∧ vch.length < 76 ∧ pc = opcode :: vch ++ rest) ∨
      ∃ k, ((opcode, k) = (opPushData1, 1) ∨ (opcode, k) = (opPushData2, 2) ∨
          (opcode, k) = (opPushData4, 4)) ∧ vch.length < 256 ^ k ∧
        pc = opcode :: leBytes k vch.length ++ vch ++ rest := by
  have h₂ : CScript.getOp2 pc = (some (opcode, vch), rest) := by
    unfold CScript.getOp at h
    split at h
    · obtain ⟨rfl, rfl, rfl⟩ : _ ∧ _ ∧ _ := by simpa using h
      assumption
    · cases h
  -- a push whose size has `k` bytes
  have hwidth : ∀ {op : Opcode} {pc : Bytes} {k : ℕ}, ¬ CScript.remaining pc < k →
      CScript.getOperand op (leNat (pc.take k)) (pc.drop k) = (some (opcode, vch), rest) →
      opcode = op ∧ vch.length < 256 ^ k ∧ op :: pc = opcode :: leBytes k vch.length ++ vch ++ rest := by
    intro op pc k hrem hop
    obtain ⟨rfl, hvch, hdrop⟩ := CScript.getOperand_eq_some hop
    have hle := CScript.remaining_le pc
    have htake : (pc.take k).length = k := by
      rw [List.length_take]
      omega
    have hlt := ByteCodec.leNat_lt (pc.take k)
    have hsize : leBytes k vch.length = pc.take k := by
      have hback := leBytes_leNat (pc.take k)
      rwa [htake, ← hvch] at hback
    rw [htake] at hlt
    refine ⟨rfl, by rw [hvch]; exact hlt, ?_⟩
    rw [List.cons_append, List.cons_append, List.append_assoc, hsize, ← hdrop, List.take_append_drop]
  unfold CScript.getOp2 at h₂
  split at h₂
  · cases h₂
  · rename_i op pc
    split_ifs at h₂ with h₀ hle hlt h1 hrem1 h2 hrem2 hrem4
    · cases h₂
    · obtain ⟨rfl, hvch, rfl⟩ := CScript.getOperand_eq_some h₂
      have h76 : opPushData1.toNat = 76 := rfl
      rw [UInt8.lt_iff_toNat_lt, h76] at hlt
      refine .inr (.inl ⟨?_, by omega, rfl⟩)
      rw [hvch, UInt8.ofNat_toNat]
    · cases h₂
    · obtain ⟨rfl, hlen, hpc⟩ := hwidth hrem1 h₂
      exact .inr (.inr ⟨1, .inl (by rw [h1]), hlen, hpc⟩)
    · cases h₂
    · obtain ⟨rfl, hlen, hpc⟩ := hwidth hrem2 h₂
      exact .inr (.inr ⟨2, .inr (.inl (by rw [h2])), hlen, hpc⟩)
    · cases h₂
    · obtain ⟨rfl, hlen, hpc⟩ := hwidth hrem4 h₂
      have h4 : opcode = opPushData4 := by
        have h78 : opPushData4.toNat = 78 := rfl
        have h77 : opPushData2.toNat = 77 := rfl
        have h76 : opPushData1.toNat = 76 := rfl
        rw [UInt8.le_iff_toNat_le] at hle
        rw [UInt8.lt_iff_toNat_lt] at hlt
        rw [← UInt8.toNat_inj] at h1 h2 ⊢
        omega
      exact .inr (.inr ⟨4, .inr (.inr (by rw [h4])), hlen, hpc⟩)
    · cases h₂
      exact .inl ⟨UInt8.not_le.mp hle, rfl, rfl⟩

/-- **An instruction is read in the same way whatever comes after it.** -/
theorem getOp_congr {bytes vch rest rest' : Bytes} {opcode : Opcode}
    (h : CScript.getOp (bytes ++ rest) = some (opcode, vch, rest))
    (hlen : (bytes ++ rest').length < 2 ^ 31) :
    CScript.getOp (bytes ++ rest') = some (opcode, vch, rest') := by
  rcases exists_form_of_getOp h with ⟨hgt, rfl, hpc⟩ | ⟨hop, hvch, hpc⟩ | ⟨k, hwidth, hvch, hpc⟩
  · have hbytes : bytes = [opcode] :=
      List.append_cancel_right (show bytes ++ rest = [opcode] ++ rest from hpc)
    rw [hbytes] at hlen ⊢
    exact CScript.getOp_of_gt hgt hlen
  · have hbytes : bytes = opcode :: vch :=
      List.append_cancel_right (show bytes ++ rest = (opcode :: vch) ++ rest from hpc)
    rw [hbytes, hop] at hlen ⊢
    rw [CScript.getOp, getOp2_direct hvch hlen]
  · have hbytes : bytes = opcode :: leBytes k vch.length ++ vch :=
      List.append_cancel_right (show bytes ++ rest = (opcode :: leBytes k vch.length ++ vch) ++ rest from hpc)
    rw [hbytes] at hlen ⊢
    rw [CScript.getOp, getOp2_leBytes k hwidth hvch hlen]

/-- The bytes are one instruction, whatever comes after them. -/
def IsInstruction (bytes : Bytes) : Prop :=
  ∃ opcode vch, ∀ rest : Bytes, (bytes ++ rest).length < 2 ^ 31 →
    CScript.getOp (bytes ++ rest) = some (opcode, vch, rest)

/-- What `operator<<` appends is an instruction. -/
theorem isInstruction_pushVector (b : Bytes) : IsInstruction (CScript.pushVector [] b) :=
  ⟨_, _, fun _ hlen => getOp_pushVector hlen⟩

/-- Where an instruction of the list stands. -/
theorem Instructions.exists_getOp {pc : Bytes} {l : List (Opcode × Bytes)} (h : Instructions pc l)
    {opcode : Opcode} {bytes : Bytes} (hmem : (opcode, bytes) ∈ l) :
    ∃ vch rest, CScript.getOp (bytes ++ rest) = some (opcode, vch, rest) ∧
      (bytes ++ rest).length ≤ pc.length := by
  induction h with
  | nil => cases hmem
  | @cons pc vch rest bytes' opcode' l hop hpc hl ih =>
    rcases List.mem_cons.mp hmem with heq | hmem
    · obtain ⟨rfl, rfl⟩ := Prod.mk.inj heq
      exact ⟨vch, rest, hpc ▸ hop, by rw [hpc]⟩
    · obtain ⟨vch', rest', hop', hle⟩ := ih hmem
      have hlt := CScript.length_lt_of_getOp hop
      exact ⟨vch', rest', hop', by omega⟩

/-- The script is the bytes of its instructions. -/
theorem Instructions.eq_flatMap {pc : Bytes} {l : List (Opcode × Bytes)} (h : Instructions pc l) :
    pc = l.flatMap Prod.snd := by
  induction h with
  | nil => rfl
  | cons hop hpc hl ih => rw [hpc, ih, List.flatMap_cons]

/-- **Instructions may be left out.** -/
theorem Instructions.filter {pc : Bytes} {l : List (Opcode × Bytes)} (h : Instructions pc l)
    (hlen : pc.length < 2 ^ 31) (p : Opcode × Bytes → Bool) :
    Instructions ((l.filter p).flatMap Prod.snd) (l.filter p) := by
  induction h with
  | nil => exact .nil
  | @cons pc vch rest bytes opcode l hop hpc hl ih =>
    have hlt := CScript.length_lt_of_getOp hop
    have ih := ih (by omega)
    by_cases hp : p (opcode, bytes) = true
    · rw [List.filter_cons_of_pos hp, List.flatMap_cons]
      refine .cons (getOp_congr (hpc ▸ hop) ?_) rfl ih
      -- what is left of the rest is no longer than the rest
      have hsub : ((l.filter p).flatMap Prod.snd).length ≤ rest.length := by
        rw [hl.eq_flatMap]
        exact (List.filter_sublist.flatMap Prod.snd).length_le
      rw [hpc, List.length_append] at hlen
      show (bytes ++ _).length < _
      rw [List.length_append]
      omega
    · rw [List.filter_cons_of_neg hp]
      exact ih

/-! ## `FindAndDelete` -/

/-- The loop counts the instructions that are written as the pattern, and leaves the others. -/
theorem Instructions.findLoop_eq_filter {pc b : Bytes} {l : List (Opcode × Bytes)}
    (h : Instructions pc l) (hb : IsInstruction b) (hlen : pc.length < 2 ^ 31) :
    ∀ fuel, l.length < fuel → CScript.findLoop b fuel pc =
      (l.countP (·.2 = b), (l.filter (·.2 ≠ b)).flatMap Prod.snd) := by
  obtain ⟨op, operand, hread⟩ := hb
  have hne : b ≠ [] := by
    rintro rfl
    have hnil := hread [] (Nat.two_pow_pos 31)
    cases hnil
  have hpos := List.length_pos_iff.mpr hne
  induction h with
  | nil =>
    intro fuel hfuel
    cases fuel with
    | zero => cases hfuel
    | succ fuel =>
      have hneg : ¬ (CScript.remaining [] ≥ b.length ∧ b.isPrefixOf [] = true) := by
        rintro ⟨hrem, -⟩
        have hle := CScript.remaining_le []
        rw [List.length_nil] at hle
        omega
      rw [CScript.findLoop, if_neg hneg]
      rfl
  | @cons pc vch rest bytes opcode l hop hpc hl ih =>
    intro fuel hfuel
    have hlt := CScript.length_lt_of_getOp hop
    cases fuel with
    | zero => cases hfuel
    | succ fuel =>
      have hrun := ih (by omega) fuel (by simpa using hfuel)
      by_cases heq : bytes = b
      · subst heq
        have hrem : CScript.remaining pc ≥ bytes.length := by
          rw [CScript.remaining_of_lt hlen, hpc, List.length_append]
          omega
        have hdrop : pc.drop bytes.length = rest := by rw [hpc, List.drop_left]
        rw [CScript.findLoop, if_pos ⟨hrem, by rw [hpc]; simp⟩, hdrop, hrun,
          List.countP_cons_of_pos (by simp), List.filter_cons_of_neg (by simp)]
      · have hneg : ¬ (CScript.remaining pc ≥ b.length ∧ b.isPrefixOf pc = true) := by
          rintro ⟨-, hprefix⟩
          -- the pattern at an instruction is the instruction
          obtain ⟨rest', hpc'⟩ := List.isPrefixOf_iff_prefix.mp hprefix
          have hop' := hread rest' (by rw [hpc']; exact hlen)
          rw [hpc', hop] at hop'
          obtain ⟨-, hrest⟩ := Prod.mk.inj (Prod.mk.inj (Option.some.inj hop')).2
          rw [← hrest] at hpc'
          exact heq (List.append_cancel_right (hpc.symm.trans hpc'.symm))
        have htake : pc.take (pc.length - rest.length) = bytes := by
          rw [hpc, List.length_append, Nat.add_sub_cancel, List.take_left]
        rw [CScript.findLoop, if_neg hneg, hop]
        dsimp only
        rw [hrun, htake, List.countP_cons_of_neg (by simpa using heq),
          List.filter_cons_of_pos (by simpa using heq), List.flatMap_cons]

/-- What the loop leaves. -/
theorem Instructions.findLoop_spec {pc b : Bytes} {l : List (Opcode × Bytes)}
    (h : Instructions pc l) (hb : IsInstruction b) (hlen : pc.length < 2 ^ 31) {fuel : ℕ}
    (hfuel : l.length < fuel) :
    (CScript.findLoop b fuel pc).2 = (l.filter (·.2 ≠ b)).flatMap Prod.snd := by
  rw [h.findLoop_eq_filter hb hlen fuel hfuel]

/-- **`FindAndDelete` of a push is a filter of the instructions.** -/
theorem findAndDelete_push {script : CScript} {sig : Bytes}
    {l : List (Opcode × Bytes)} (h : Instructions script l) (hlen : script.length < 2 ^ 32) :
    Instructions (script.findAndDelete (CScript.pushVector [] sig)).2
        (l.filter (·.2 ≠ CScript.pushVector [] sig)) ∧
      (script.findAndDelete (CScript.pushVector [] sig)).1 =
        l.countP (·.2 = CScript.pushVector [] sig) := by
  have hsmall : script.length < 2 ^ 31 := h.length_lt hlen
  have hne : CScript.pushVector [] sig ≠ [] := by
    intro hnil
    obtain ⟨opcode, vch, hread⟩ := isInstruction_pushVector sig
    have hop := hread [] (by rw [hnil]; exact Nat.two_pow_pos 31)
    rw [hnil] at hop
    cases hop
  have hloop := h.findLoop_eq_filter (isInstruction_pushVector sig) hsmall (script.length + 1)
    (Nat.lt_succ_of_le h.length_le)
  rw [CScript.findAndDelete, if_neg hne, hloop]
  exact ⟨h.filter hsmall _, rfl⟩

/-- The second of three instructions goes. -/
theorem findAndDelete_push_signature :
    Instructions (CScript.findAndDelete [op1, 0x01, 0xaa, opCheckSig]
        (CScript.pushVector [] [0xaa])).2
        ([(op1, [op1]), (0x01, [0x01, 0xaa]), (opCheckSig, [opCheckSig])].filter
          (·.2 ≠ CScript.pushVector [] [0xaa])) ∧
      (CScript.findAndDelete [op1, 0x01, 0xaa, opCheckSig] (CScript.pushVector [] [0xaa])).1 =
        [(op1, [op1]), (0x01, [0x01, 0xaa]), (opCheckSig, [opCheckSig])].countP
          (·.2 = CScript.pushVector [] [0xaa]) := by
  apply findAndDelete_push
  · have hfirst : CScript.getOp [op1, 0x01, 0xaa, opCheckSig] =
        some (op1, [], [0x01, 0xaa, opCheckSig]) := by decide +kernel
    have hsecond : CScript.getOp [0x01, 0xaa, opCheckSig] = some (0x01, [0xaa], [opCheckSig]) := by
      decide +kernel
    have hlast : CScript.getOp [opCheckSig] = some (opCheckSig, [], []) := by decide +kernel
    exact .cons hfirst rfl (.cons hsecond rfl (.cons hlast rfl .nil))
  · decide

end Script
