/-
# Writing a script and reading it back

`operator<<` appends an opcode, a number or a byte vector to a script, and `GetOp` takes the
instructions off again.  The size of a vector is written in one of four ways, and the numbers
from -1 to 16 have opcodes of their own; `CheckMinimalPush` demands that the shortest way is used.

* `getOp_pushVector` : the four sizes of a vector;
* `checkMinimalPush_int64`, `checkMinimalPush_vector` : what the writer writes is the shortest;
* `step_pushInt64` : a number that is pushed lands on the stack;
* `walk_encode` : the whole script is read back.

The distance to the end of a script is an `int32_t`, so all this is for scripts of fewer than
`2 ^ 31` bytes.
-/
import Hub.ScriptFrame
import Hub.ScriptSafety

open ByteCodec Opcode Bytes Halting

namespace Script

/-! ## Instructions -/

/-- What may be appended to a script with `operator<<`. -/
inductive Instruction
  | opcode (opcode : Opcode)
  | int64 (n : ℤ)
  | vector (b : Bytes)
  deriving DecidableEq, Repr

namespace Instruction

/-- An opcode above `OP_PUSHDATA4`, an `int64_t` other than the minimum, or a vector whose size
has 32 bits. -/
def WellFormed : Instruction → Prop
  | opcode op => opPushData4 < op
  | int64 n => -2 ^ 63 < n ∧ n < 2 ^ 63
  | vector b => b.length < 2 ^ 32

/-- `operator<<`. -/
def append (script : CScript) : Instruction → CScript
  | opcode op => CScript.pushOpcode script op
  | int64 n => CScript.pushInt64 script n
  | vector b => CScript.pushVector script b

/-- The opcode that comes before a vector of `size` bytes. -/
def vectorOpcode (size : ℕ) : Opcode :=
  if size < opPushData1.toNat then UInt8.ofNat size
  else if size ≤ 0xff then opPushData1
  else if size ≤ 0xffff then opPushData2
  else opPushData4

/-- The numbers that have an opcode of their own. -/
def IsSmall (n : ℤ) : Prop := n = -1 ∨ (n ≥ 1 ∧ n ≤ 16)

instance : DecidablePred IsSmall := fun _ => inferInstanceAs (Decidable (_ ∨ _))

/-- The opcode of a number: `OP_1NEGATE`, `OP_0`, `OP_1` to `OP_16`, or a push of
`CScriptNum::serialize`. -/
def int64Opcode (n : ℤ) : Opcode :=
  if IsSmall n then UInt8.ofNat (n + 80).toNat
  else if n = 0 then op0
  else vectorOpcode (CScriptNum.serialize n).length

/-- What `GetOp` is to return for an instruction. -/
def parsed : Instruction → Opcode × Bytes
  | opcode op => (op, [])
  | int64 n => (int64Opcode n, if IsSmall n then [] else CScriptNum.serialize n)
  | vector b => (vectorOpcode b.length, b)

/-- A list of instructions, appended one after the other. -/
def encode (is : List Instruction) : CScript := is.foldl append []

theorem append_eq (script : CScript) (i : Instruction) : append script i = script ++ append [] i := by
  cases i with
  | opcode op => rfl
  | vector b =>
    simp only [append, CScript.pushVector, List.nil_append, List.append_assoc]
  | int64 n =>
    simp only [append, CScript.pushInt64, CScript.pushVector]
    split_ifs
    · rfl
    · rfl
    · rw [List.nil_append, List.append_assoc]

/-- The bytes of the instructions stand side by side. -/
theorem encode_cons (i : Instruction) (is : List Instruction) :
    encode (i :: is) = append [] i ++ encode is := by
  have hfold : ∀ (is : List Instruction) (script : CScript),
      is.foldl append script = script ++ encode is := by
    intro is
    induction is with
    | nil =>
      intro script
      exact (List.append_nil script).symm
    | cons i is ih =>
      intro script
      rw [encode, List.foldl_cons, List.foldl_cons, ih, ih (append [] i), append_eq,
        List.append_assoc]
  exact hfold is (append [] i)

end Instruction

open Instruction

/-! ## Reading a push -/

/-- An operand that is there is read. -/
theorem getOperand_append (op : Opcode) {b rest : Bytes} (h : (b ++ rest).length < 2 ^ 31) :
    CScript.getOperand op b.length (b ++ rest) = (some (op, b), rest) := by
  have hrem := CScript.remaining_of_lt h
  rw [List.length_append] at hrem
  rw [CScript.getOperand, if_neg (by omega), List.take_left, List.drop_left]

/-- A size of `k` bytes is read. -/
theorem getOperand_leBytes (op : Opcode) (k : ℕ) {b rest : Bytes} (hb : b.length < 256 ^ k)
    (h : (b ++ rest).length < 2 ^ 31) :
    CScript.getOperand op (leNat ((leBytes k b.length ++ (b ++ rest)).take k))
      ((leBytes k b.length ++ (b ++ rest)).drop k) = (some (op, b), rest) := by
  have hlen : (leBytes k b.length).length = k := length_leBytes k b.length
  rw [List.take_left' hlen, List.drop_left' hlen, leNat_leBytes k _ hb]
  exact getOperand_append op h

/-- A push whose size has `k` bytes behind the opcode. -/
theorem getOp2_leBytes (k : ℕ) {op : Opcode} {b rest : Bytes}
    (hwidth : (op, k) = (opPushData1, 1) ∨ (op, k) = (opPushData2, 2) ∨ (op, k) = (opPushData4, 4))
    (hb : b.length < 256 ^ k) (h : (op :: leBytes k b.length ++ b ++ rest).length < 2 ^ 31) :
    CScript.getOp2 (op :: leBytes k b.length ++ b ++ rest) = (some (op, b), rest) := by
  rw [List.cons_append, List.cons_append, List.append_assoc] at h ⊢
  have hrem := CScript.remaining_of_lt h
  rw [List.length_cons, List.length_append, length_leBytes] at h
  have hrem' : CScript.remaining (leBytes k b.length ++ (b ++ rest))
      = (leBytes k b.length ++ (b ++ rest)).length := by
    apply CScript.remaining_of_lt
    rw [List.length_append, length_leBytes]
    omega
  rw [List.length_cons] at hrem
  rw [List.length_append, length_leBytes] at hrem'
  have hread := getOperand_leBytes op k hb (show (b ++ rest).length < 2 ^ 31 by omega)
  rw [CScript.getOp2, if_neg (by omega)]
  rcases hwidth with hw | hw | hw
  · obtain ⟨rfl, rfl⟩ := Prod.mk.inj hw
    rw [if_pos (by decide), if_neg (by decide), if_pos rfl, if_neg (by omega)]
    exact hread
  · obtain ⟨rfl, rfl⟩ := Prod.mk.inj hw
    rw [if_pos (by decide), if_neg (by decide), if_neg (by decide), if_pos rfl,
      if_neg (by omega)]
    exact hread
  · obtain ⟨rfl, rfl⟩ := Prod.mk.inj hw
    rw [if_pos (by decide), if_neg (by decide), if_neg (by decide), if_neg (by decide),
      if_neg (by omega)]
    exact hread

/-- A push whose opcode is the size. -/
theorem getOp2_direct {b rest : Bytes} (hb : b.length < 76)
    (h : (UInt8.ofNat b.length :: b ++ rest).length < 2 ^ 31) :
    CScript.getOp2 (UInt8.ofNat b.length :: b ++ rest)
      = (some (UInt8.ofNat b.length, b), rest) := by
  have hop : (UInt8.ofNat b.length).toNat = b.length := by
    rw [UInt8.toNat_ofNat', Nat.mod_eq_of_lt (by omega)]
  have hlt : UInt8.ofNat b.length < opPushData1 := by
    rw [UInt8.lt_iff_toNat_lt, hop]
    exact hb
  have hle : UInt8.ofNat b.length ≤ opPushData4 := by
    rw [UInt8.le_iff_toNat_le, hop]
    exact le_trans hb.le (by decide)
  have hrem := CScript.remaining_of_lt h
  rw [List.cons_append] at h hrem ⊢
  rw [List.length_cons] at h hrem
  rw [CScript.getOp2, if_neg (by omega), if_pos hle, if_pos hlt, hop]
  exact getOperand_append _ (by omega)

/-- **The four sizes** of a vector. -/
theorem getOp_pushVector {b rest : Bytes}
    (h : (CScript.pushVector [] b ++ rest).length < 2 ^ 31) :
    CScript.getOp (CScript.pushVector [] b ++ rest)
      = some (vectorOpcode b.length, b, rest) := by
  have hlen : b.length < 256 ^ 4 := by
    rw [CScript.pushVector, List.nil_append, List.length_append, List.length_append] at h
    omega
  have hread : CScript.getOp2 (CScript.pushVector [] b ++ rest)
      = (some (vectorOpcode b.length, b), rest) := by
    rw [CScript.pushVector, List.nil_append] at h ⊢
    unfold CScript.pushHeader vectorOpcode at *
    have h76 : opPushData1.toNat = 76 := rfl
    split_ifs at * with h₁ h₂ h₃
    · exact getOp2_direct (by omega) h
    · exact getOp2_leBytes 1 (.inl rfl) (by omega) h
    · exact getOp2_leBytes 2 (.inr (.inl rfl)) (by omega) h
    · exact getOp2_leBytes 4 (.inr (.inr rfl)) hlen h
  rw [CScript.getOp, hread]

/-- A number is read back as its opcode, or as the vector that it is written as. -/
theorem getOp_pushInt64 {n : ℤ} {rest : Bytes}
    (h : (CScript.pushInt64 [] n ++ rest).length < 2 ^ 31) :
    CScript.getOp (CScript.pushInt64 [] n ++ rest)
      = some ((parsed (.int64 n)).1, (parsed (.int64 n)).2, rest) := by
  unfold CScript.pushInt64 at h ⊢
  simp only [parsed, int64Opcode]
  by_cases hsmall : IsSmall n
  · have hgt : opPushData4 < UInt8.ofNat (n + 80).toNat := by
      rw [UInt8.lt_iff_toNat_lt, UInt8.toNat_ofNat']
      have h78 : opPushData4.toNat = 78 := rfl
      have hn : n = -1 ∨ (n ≥ 1 ∧ n ≤ 16) := hsmall
      omega
    have hpos : n = -1 ∨ (n ≥ 1 ∧ n ≤ 16) := hsmall
    rw [if_pos hpos] at h ⊢
    rw [if_pos hsmall, if_pos hsmall]
    exact CScript.getOp_of_gt hgt h
  · have hneg : ¬ (n = -1 ∨ (n ≥ 1 ∧ n ≤ 16)) := hsmall
    rw [if_neg hneg] at h ⊢
    rw [if_neg hsmall, if_neg hsmall]
    split_ifs at h ⊢ with hzero
    · subst hzero
      exact getOp_pushVector (b := []) h
    · exact getOp_pushVector h

/-- **An instruction is read back**, and reading ends behind it. -/
theorem getOp_append {i : Instruction} (hi : i.WellFormed) {rest : Bytes}
    (h : (append [] i ++ rest).length < 2 ^ 31) :
    CScript.getOp (append [] i ++ rest) = some (i.parsed.1, i.parsed.2, rest) := by
  cases i with
  | opcode op => exact CScript.getOp_of_gt hi h
  | int64 n => exact getOp_pushInt64 h
  | vector b => exact getOp_pushVector h

/-! ## Reading the script -/

theorem walk_of_getOp {fuel : ℕ} {opcode : Opcode} {vch pc rest : Bytes}
    (hget : CScript.getOp pc = some (opcode, vch, rest)) :
    CScript.walk (fuel + 1) pc = (CScript.walk fuel rest).map ((opcode, vch) :: ·) := by
  cases pc with
  | nil => cases hget
  | cons b pc =>
    rw [CScript.walk, hget]
    exact List.cons_ne_nil b pc

/-- **A script is read back**, to its end. -/
theorem walk_encode {is : List Instruction} (hwf : ∀ i ∈ is, i.WellFormed)
    (hlen : (encode is).length < 2 ^ 31) {fuel : ℕ} (hfuel : (encode is).length ≤ fuel) :
    CScript.walk fuel (encode is) = some (is.map parsed) := by
  induction is generalizing fuel with
  | nil => cases fuel <;> rfl
  | cons i is ih =>
    rw [encode_cons] at hlen hfuel ⊢
    have hget := getOp_append (hwf i List.mem_cons_self) hlen
    have hlt := CScript.length_lt_of_getOp hget
    obtain ⟨fuel, rfl⟩ : ∃ k, fuel = k + 1 := ⟨fuel - 1, by omega⟩
    rw [walk_of_getOp hget, ih (fun j hj => hwf j (List.mem_cons_of_mem i hj)) (by omega) (by omega)]
    rfl

/-! ## Shortest pushes -/

theorem toNat_vectorOpcode {size : ℕ} (h : size < 76) : (vectorOpcode size).toNat = size := by
  have h76 : opPushData1.toNat = 76 := rfl
  rw [vectorOpcode, if_pos (by omega), UInt8.toNat_ofNat', Nat.mod_eq_of_lt (by omega)]

/-- A byte that has an opcode of its own. -/
def HasOpcode (x : UInt8) : Prop := (x ≥ 1 ∧ x ≤ 16) ∨ x = 0x81

instance : DecidablePred HasOpcode := fun _ => inferInstanceAs (Decidable (_ ∨ _))

/-- **A vector is pushed in the shortest way**, unless it is a single byte that has an opcode. -/
theorem checkMinimalPush_vector (b : Bytes) :
    checkMinimalPush b (vectorOpcode b.length) = true ↔ ¬ ∃ x, b = [x] ∧ HasOpcode x := by
  have h76 : opPushData1.toNat = 76 := rfl
  match b with
  | [] =>
    refine ⟨fun _ => ?_, fun _ => rfl⟩
    rintro ⟨x, hx, -⟩
    cases hx
  | [x] =>
    have hbyte : ∀ x : UInt8, checkMinimalPush [x] (vectorOpcode 1) = true ↔ ¬ HasOpcode x := by
      decide +kernel
    refine (hbyte x).trans (not_congr ⟨fun h => ⟨x, rfl, h⟩, ?_⟩)
    rintro ⟨y, hxy, hy⟩
    obtain rfl : x = y := List.head_eq_of_cons_eq hxy
    exact hy
  | x :: y :: b =>
    have hne : ¬ ∃ z, x :: y :: b = [z] ∧ HasOpcode z := by
      rintro ⟨z, hz, -⟩
      cases hz
    have hlen : (x :: y :: b).length ≥ 2 := by
      rw [List.length_cons, List.length_cons]
      omega
    refine ⟨fun _ => hne, fun _ => ?_⟩
    generalize x :: y :: b = v at hlen ⊢
    unfold checkMinimalPush
    rw [if_neg (by omega), if_neg (by omega), if_neg (by omega)]
    split_ifs with h₁ h₂ h₃
    · rw [beq_iff_eq]
      exact toNat_vectorOpcode (by omega)
    · rw [vectorOpcode, if_neg (by omega), if_pos (by omega)]
      rfl
    · rw [vectorOpcode, if_neg (by omega), if_neg (by omega), if_pos (by omega)]
      rfl
    · rfl

/-- The numbers that are written as a byte with an opcode have that opcode. -/
theorem isSmall_of_serialize {n : ℤ} {x : UInt8} (h : CScriptNum.serialize n = [x])
    (hx : HasOpcode x) : IsSmall n := by
  obtain ⟨hsmall, hbyte⟩ := CScriptNum.serialize_singleton h
  have hne : n ≠ 0 := by
    rintro rfl
    cases h
  have hnat : ∀ k : Fin 128, (HasOpcode (UInt8.ofNat k) → (k : ℕ) ≤ 16) ∧
      (HasOpcode (UInt8.ofNat k ||| 0x80) → (k : ℕ) = 1) := by
    decide +kernel
  obtain ⟨hpos, hneg⟩ := hnat ⟨n.natAbs, hsmall⟩
  split_ifs at hbyte with hsign
  · rw [hbyte] at hx
    have hone := hneg hx
    left
    simp only at hone
    omega
  · rw [hbyte] at hx
    have hle := hpos hx
    right
    simp only at hle
    omega

/-- The opcodes of the small numbers. -/
theorem int64Opcode_of_isSmall {n : ℤ} (h : IsSmall n) :
    IsNumber (int64Opcode n) ∧ ((int64Opcode n).toNat - (op1.toNat - 1) : ℤ) = n ∧
      checkMinimalPush (CScriptNum.serialize n) (int64Opcode n) = true := by
  have hall : ∀ k : Fin 18, IsSmall (k.val - 1 : ℤ) → IsNumber (int64Opcode (k.val - 1)) ∧
      ((int64Opcode (k.val - 1)).toNat - (op1.toNat - 1) : ℤ) = k.val - 1 ∧
      checkMinimalPush (CScriptNum.serialize (k.val - 1)) (int64Opcode (k.val - 1)) = true := by
    decide +kernel
  have hn : n = -1 ∨ (n ≥ 1 ∧ n ≤ 16) := h
  have hcast : (((n + 1).toNat : ℕ) - 1 : ℤ) = n := by omega
  have hcase := hall ⟨(n + 1).toNat, by omega⟩
  simp only [hcast] at hcase
  exact hcase h

/-- The other numbers are pushed as vectors. -/
theorem int64Opcode_of_not_isSmall {n : ℤ} (h : ¬ IsSmall n) : int64Opcode n ≤ opPushData4 := by
  have hlen := CScriptNum.length_serialize_le n
  rw [int64Opcode, if_neg h]
  split_ifs with hzero
  · decide
  · rw [UInt8.le_iff_toNat_le, toNat_vectorOpcode (by omega)]
    exact le_trans hlen (by decide)

/-- **A number is pushed in the shortest way.** -/
theorem checkMinimalPush_int64 (n : ℤ) :
    checkMinimalPush (CScriptNum.serialize n) (int64Opcode n) = true := by
  by_cases hsmall : IsSmall n
  · exact (int64Opcode_of_isSmall hsmall).2.2
  · rw [int64Opcode, if_neg hsmall]
    split_ifs with hzero
    · rw [hzero]
      decide
    · rw [checkMinimalPush_vector]
      rintro ⟨x, hserialize, hx⟩
      exact hsmall (isSmall_of_serialize hserialize hx)

/-! ## Evaluating a push -/

section

variable (crypto : Crypto) (checker : BaseSignatureChecker) (flags : Flags)

theorem limitStackSize_of_le {m : Machine} (h : m.stack.length + m.altstack.length ≤ 1000) :
    limitStackSize m = .ok () m := by
  unfold limitStackSize
  rw [bind_apply_ok (get_apply m)]
  exact failIf_apply_of_neg (by omega) m

/-- What the instruction of a number does. -/
theorem execInstruction_int64 (n : ℤ) (m : Machine) :
    execInstruction crypto checker flags true (parsed (.int64 n)).1 (parsed (.int64 n)).2 m
      = .ok () { m with stack := CScriptNum.serialize n :: m.stack } := by
  by_cases hsmall : IsSmall n
  · obtain ⟨hnumber, hvalue, -⟩ := int64Opcode_of_isSmall hsmall
    rw [parsed, execInstruction_number flags crypto checker hnumber, pushNumber, hvalue]
    rfl
  · have hle := int64Opcode_of_not_isSmall hsmall
    have hmin := checkMinimalPush_int64 n
    simp only [parsed, if_neg hsmall]
    rw [execInstruction_operand flags crypto checker hle, pushOperand,
      bind_apply_ok (failIf_apply_of_neg (fun h => h.2 hmin) m)]
    rfl

/-- **A number that is pushed lands on the stack**, in whatever script it stands. -/
theorem step_pushInt64 (n : ℤ) {m : Machine} {rest : Bytes}
    (hpc : m.pc = CScript.pushInt64 [] n ++ rest) (hlen : m.pc.length < 2 ^ 31)
    (hexec : m.fExec = true) (hroom : m.stack.length + m.altstack.length < 1000) :
    step crypto checker flags m
      = .ok () { m with pc := rest, stack := CScriptNum.serialize n :: m.stack } := by
  have hget : CScript.getOp m.pc = some ((parsed (.int64 n)).1, (parsed (.int64 n)).2, rest) := by
    rw [hpc] at hlen ⊢
    exact getOp_pushInt64 hlen
  have hserialize := CScriptNum.length_serialize_le n
  have hop : (parsed (.int64 n)).1 ≤ op16 := by
    show int64Opcode n ≤ op16
    by_cases hsmall : IsSmall n
    · have hnumber : ∀ opcode, IsNumber opcode → opcode ≤ op16 := by decide +kernel
      exact hnumber _ (int64Opcode_of_isSmall hsmall).1
    · have hle : opPushData4 ≤ op16 := by decide
      exact UInt8.le_trans (int64Opcode_of_not_isSmall hsmall) hle
  have hsize : (parsed (.int64 n)).2.length ≤ maxScriptElementSize := by
    simp only [parsed]
    split_ifs
    · exact Nat.zero_le _
    · exact le_trans hserialize (by decide)
  rw [step_of_getOp flags _ crypto checker hget, hexec,
    stepWith_of_le flags crypto checker hop hsize,
    bind_apply_ok (execInstruction_int64 crypto checker flags n _)]
  refine limitStackSize_of_le ?_
  show (CScriptNum.serialize n :: m.stack).length + m.altstack.length ≤ 1000
  rw [List.length_cons]
  omega

/-- A script that is one number leaves it on the stack. -/
theorem evalScript_pushInt64 (n : ℤ) {m : Machine} (hroom : m.stack.length < 1000) :
    evalScript crypto checker flags (CScript.pushInt64 [] n) m
      = .ok () { start [] m with
          stack := CScriptNum.serialize n :: m.stack
          pbegincodehash := CScript.pushInt64 [] n } := by
  have hlen : (CScript.pushInt64 [] n).length ≤ 10 := by
    have hserialize := CScriptNum.length_serialize_le n
    have h76 : opPushData1.toNat = 76 := rfl
    unfold CScript.pushInt64 CScript.pushVector CScript.pushHeader
    split_ifs with h₁ h₂ h₃
    · exact Nat.le_add_left 1 9
    · exact Nat.le_add_left 1 9
    · rw [List.nil_append, List.length_append, List.length_singleton]
      omega
    · omega
    · omega
    · omega
  have hne : CScript.pushInt64 [] n ≠ [] := by
    intro hnil
    have hget := getOp_pushInt64
      (show (CScript.pushInt64 [] n ++ []).length < 2 ^ 31 by rw [List.append_nil]; omega)
    rw [hnil] at hget
    cases hget
  have hstep := step_pushInt64 crypto checker flags n (m := start (CScript.pushInt64 [] n) m)
    (show _ = CScript.pushInt64 [] n ++ [] from (List.append_nil _).symm)
    (show (CScript.pushInt64 [] n).length < _ by omega) rfl
    (show m.stack.length + 0 < 1000 by omega)
  obtain ⟨fuel, hfuel⟩ : ∃ k, (CScript.pushInt64 [] n).length = k + 1 :=
    Nat.exists_eq_succ_of_ne_zero (List.length_pos_iff.mpr hne).ne'
  have hloop : evalLoop crypto checker flags (CScript.pushInt64 [] n).length
      (start (CScript.pushInt64 [] n) m) = .ok () { start (CScript.pushInt64 [] n) m with
        pc := [], stack := CScriptNum.serialize n :: m.stack } := by
    have hpc : (start (CScript.pushInt64 [] n) m).pc ≠ [] := hne
    rw [hfuel, evalLoop, bind_apply_ok (get_apply _), if_neg hpc, bind_apply_ok hstep]
    cases fuel with
    | zero => rfl
    | succ fuel => rfl
  rw [evalScript_of_ok flags crypto checker (by omega) hloop]
  rfl

end

/-! ## The round trip -/

/-- **The round trip.**  Reading back a script that was written with `operator<<` gives its
instructions and ends at its end; its numbers are pushed in the shortest way, and so are its
vectors except for the bytes that have opcodes; and a number that is evaluated is left on the
stack. -/
theorem script_roundTrip {is : List Instruction} (hwf : ∀ i ∈ is, i.WellFormed)
    (hlen : (encode is).length < 2 ^ 31) :
    CScript.walk (encode is).length (encode is) = some (is.map parsed) ∧
    (∀ n, Instruction.int64 n ∈ is →
      checkMinimalPush (CScriptNum.serialize n) (parsed (.int64 n)).1 = true ∧
      ∀ (crypto : Crypto) (checker : BaseSignatureChecker) (flags : Flags),
        (∀ (m : Machine) (rest : Bytes), m.pc = append [] (.int64 n) ++ rest →
          m.pc.length < 2 ^ 31 → m.fExec = true → m.stack.length + m.altstack.length < 1000 →
          step crypto checker flags m
            = .ok () { m with pc := rest, stack := CScriptNum.serialize n :: m.stack }) ∧
        ∀ m : Machine, m.stack.length < 1000 →
          ∃ m', evalScript crypto checker flags (encode [.int64 n]) m = .ok () m' ∧
            m'.stack = CScriptNum.serialize n :: m.stack) ∧
    ∀ b, Instruction.vector b ∈ is →
      (checkMinimalPush b (parsed (.vector b)).1 = true ↔ ¬ ∃ x, b = [x] ∧ HasOpcode x) := by
  refine ⟨walk_encode hwf hlen le_rfl, fun n _ => ⟨checkMinimalPush_int64 n, ?_⟩,
    fun b _ => checkMinimalPush_vector b⟩
  intro crypto checker flags
  refine ⟨fun m rest hpc hlong hexec hroom => ?_, fun m hroom => ?_⟩
  · exact step_pushInt64 crypto checker flags n hpc hlong hexec hroom
  · exact ⟨_, evalScript_pushInt64 crypto checker flags n hroom, rfl⟩

theorem script_roundTrip_three :
    CScript.walk 6 (encode [.int64 7, .vector [1, 2, 3], .opcode opCheckSig])
      = some [(0x57, []), (3, [1, 2, 3]), (opCheckSig, [])] :=
  (@script_roundTrip [.int64 7, .vector [1, 2, 3], .opcode opCheckSig]
    (by simp only [List.mem_cons, List.not_mem_nil, or_false]
        rintro i (rfl | rfl | rfl)
        · exact ⟨by decide, by decide⟩
        · exact (by decide : 3 < 2 ^ 32)
        · exact (by decide : opPushData4 < opCheckSig)) (by decide)).1

/-- A vector of `2 ^ 31` bytes is not read back: the distance to the end is negative.  Nor does
`prevector::insert` append so many bytes, since its counts are of 32 bits. -/
theorem not_walk_encode :
    ¬ ∀ is : List Instruction, (∀ i ∈ is, i.WellFormed) →
      CScript.walk (encode is).length (encode is) = some (is.map parsed) := by
  intro h
  obtain ⟨b, hdata⟩ : ∃ b : Bytes, b.length = 2147483648 :=
    ⟨List.replicate 2147483648 0, List.length_replicate⟩
  have hwf : ∀ i ∈ [Instruction.vector b], i.WellFormed := by
    intro i hi
    rw [List.mem_singleton.mp hi]
    show b.length < 2 ^ 32
    omega
  have hcons : encode [.vector b] = opPushData4 :: (leBytes 4 b.length ++ b) := by
    have h76 : opPushData1.toNat = 76 := rfl
    show CScript.pushVector [] b = _
    rw [CScript.pushVector, CScript.pushHeader, if_neg (by omega), if_neg (by omega),
      if_neg (by omega)]
    rfl
  have hget : CScript.getOp (encode [.vector b]) = none := by
    have hrem : CScript.remaining (opPushData4 :: (leBytes 4 b.length ++ b)) < 1 := by
      rw [CScript.remaining, List.length_cons, List.length_append, length_leBytes, hdata, toInt32,
        Int.bmod_def]
      omega
    rw [hcons, CScript.getOp, CScript.getOp2, if_pos hrem]
  have hwalk : CScript.walk (encode [.vector b]).length (encode [.vector b]) = none := by
    rw [hcons] at hget ⊢
    rw [List.length_cons, CScript.walk, hget]
    exact List.cons_ne_nil _ _
  rw [h _ hwf] at hwalk
  cases hwalk

end Script
