/-
# Scripts

`CScript` (`libs/server/script/script.h`, `script.cpp`): the bytes of a script, the
instructions that `operator<<` appends to it and `GetOp` reads off it, and the functions that
walk over the instructions.

An iterator into a script is the list of the bytes from it on, so that `pc < end()` says that
the list is not empty.  A script is a `prevector` with a size of 32 bits.  The walks have fuel
for one round per byte: an instruction takes a byte at least (`length_lt_of_getOp`).
-/
import Hub.ScriptNum

open ByteCodec

/-- `opcodetype`: the first byte of an instruction. -/
abbrev Opcode := UInt8

namespace Opcode

/-! ## Opcodes -/

def op0 : Opcode := 0x00
def opPushData1 : Opcode := 0x4c
def opPushData2 : Opcode := 0x4d
def opPushData4 : Opcode := 0x4e
def op1Negate : Opcode := 0x4f
def opReserved : Opcode := 0x50
def op1 : Opcode := 0x51
def op16 : Opcode := 0x60

def opNop : Opcode := 0x61
def opIf : Opcode := 0x63
def opNotIf : Opcode := 0x64
def opElse : Opcode := 0x67
def opEndIf : Opcode := 0x68
def opVerify : Opcode := 0x69
def opReturn : Opcode := 0x6a

def opToAltStack : Opcode := 0x6b
def opFromAltStack : Opcode := 0x6c
def op2Drop : Opcode := 0x6d
def op2Dup : Opcode := 0x6e
def op3Dup : Opcode := 0x6f
def op2Over : Opcode := 0x70
def op2Rot : Opcode := 0x71
def op2Swap : Opcode := 0x72
def opIfDup : Opcode := 0x73
def opDepth : Opcode := 0x74
def opDrop : Opcode := 0x75
def opDup : Opcode := 0x76
def opNip : Opcode := 0x77
def opOver : Opcode := 0x78
def opPick : Opcode := 0x79
def opRoll : Opcode := 0x7a
def opRot : Opcode := 0x7b
def opSwap : Opcode := 0x7c
def opTuck : Opcode := 0x7d

def opCat : Opcode := 0x7e
def opSplit : Opcode := 0x7f
def opNum2Bin : Opcode := 0x80
def opBin2Num : Opcode := 0x81
def opSize : Opcode := 0x82

def opInvert : Opcode := 0x83
def opAnd : Opcode := 0x84
def opOr : Opcode := 0x85
def opXor : Opcode := 0x86
def opEqual : Opcode := 0x87
def opEqualVerify : Opcode := 0x88

def op1Add : Opcode := 0x8b
def op1Sub : Opcode := 0x8c
def op2Mul : Opcode := 0x8d
def op2Div : Opcode := 0x8e
def opNegate : Opcode := 0x8f
def opAbs : Opcode := 0x90
def opNot : Opcode := 0x91
def op0NotEqual : Opcode := 0x92

def opAdd : Opcode := 0x93
def opSub : Opcode := 0x94
def opMul : Opcode := 0x95
def opDiv : Opcode := 0x96
def opMod : Opcode := 0x97
def opLShift : Opcode := 0x98
def opRShift : Opcode := 0x99

def opBoolAnd : Opcode := 0x9a
def opBoolOr : Opcode := 0x9b
def opNumEqual : Opcode := 0x9c
def opNumEqualVerify : Opcode := 0x9d
def opNumNotEqual : Opcode := 0x9e
def opLessThan : Opcode := 0x9f
def opGreaterThan : Opcode := 0xa0
def opLessThanOrEqual : Opcode := 0xa1
def opGreaterThanOrEqual : Opcode := 0xa2
def opMin : Opcode := 0xa3
def opMax : Opcode := 0xa4
def opWithin : Opcode := 0xa5

def opRipemd160 : Opcode := 0xa6
def opSha1 : Opcode := 0xa7
def opSha256 : Opcode := 0xa8
def opHash160 : Opcode := 0xa9
def opHash256 : Opcode := 0xaa
def opCodeSeparator : Opcode := 0xab
def opCheckSig : Opcode := 0xac
def opCheckSigVerify : Opcode := 0xad
def opCheckMultiSig : Opcode := 0xae
def opCheckMultiSigVerify : Opcode := 0xaf

def opNop1 : Opcode := 0xb0
def opCheckLockTimeVerify : Opcode := 0xb1
def opCheckSequenceVerify : Opcode := 0xb2
def opNop4 : Opcode := 0xb3
def opNop5 : Opcode := 0xb4
def opNop6 : Opcode := 0xb5
def opNop7 : Opcode := 0xb6
def opNop8 : Opcode := 0xb7
def opNop9 : Opcode := 0xb8
def opNop10 : Opcode := 0xb9

def opInvalidOpcode : Opcode := 0xff

end Opcode

open Opcode

/-- `CScript`: the bytes of a script. -/
abbrev CScript := List UInt8

namespace CScript

/-! ## Reading instructions -/

/-- `end() - pc`, which has 32 bits. -/
def remaining (pc : Bytes) : ℤ := toInt32 pc.length

/-- The end of `GetOp2` for an instruction with an operand of `nSize` bytes at `pc`. -/
def getOperand (opcode : Opcode) (nSize : ℕ) (pc : Bytes) : Option (Opcode × Bytes) × Bytes :=
  if remaining pc < 0 ∨ (remaining pc).toNat < nSize then (none, pc)
  else (some (opcode, pc.take nSize), pc.drop nSize)

/-- `GetOp2`: the opcode and the operand of the instruction at `pc`, or nothing, and where `pc`
stands afterwards. -/
def getOp2 : Bytes → Option (Opcode × Bytes) × Bytes
  | [] => (none, [])
  | opcode :: pc =>
    if remaining (opcode :: pc) < 1 then (none, opcode :: pc)
    else if opcode ≤ opPushData4 then
      if opcode < opPushData1 then getOperand opcode opcode.toNat pc
      else if opcode = opPushData1 then
        if remaining pc < 1 then (none, pc) else getOperand opcode (leNat (pc.take 1)) (pc.drop 1)
      else if opcode = opPushData2 then
        if remaining pc < 2 then (none, pc) else getOperand opcode (leNat (pc.take 2)) (pc.drop 2)
      else
        if remaining pc < 4 then (none, pc) else getOperand opcode (leNat (pc.take 4)) (pc.drop 4)
    else (some (opcode, []), pc)

/-- `GetOp`: the opcode, the operand and what follows. -/
def getOp (pc : Bytes) : Option (Opcode × Bytes × Bytes) :=
  match getOp2 pc with
  | (some (opcode, vch), pc) => some (opcode, vch, pc)
  | (none, _) => none

/-! ## Writing instructions -/

/-- What `operator<<` writes before a vector of `size` bytes. -/
def pushHeader (size : ℕ) : Bytes :=
  if size < opPushData1.toNat then [UInt8.ofNat size]
  else if size ≤ 0xff then [opPushData1, UInt8.ofNat size]
  else if size ≤ 0xffff then opPushData2 :: leBytes 2 size
  else opPushData4 :: leBytes 4 size

/-- `operator<<(const std::vector<unsigned char>&)`. -/
def pushVector (script : CScript) (b : Bytes) : CScript := script ++ pushHeader b.length ++ b

/-- `operator<<(opcodetype)`. -/
def pushOpcode (script : CScript) (opcode : Opcode) : CScript := script ++ [opcode]

/-- `push_int64`, which `operator<<(int64_t)` calls. -/
def pushInt64 (script : CScript) (n : ℤ) : CScript :=
  if n = -1 ∨ (n ≥ 1 ∧ n ≤ 16) then script ++ [UInt8.ofNat (n + (0x51 - 1)).toNat]
  else if n = 0 then script ++ [op0]
  else pushVector script (CScriptNum.serialize n)

/-! ## Walks over the instructions -/

/-- The instructions of a script, when `GetOp` reads all of them and ends at its end. -/
def walk : ℕ → Bytes → Option (List (Opcode × Bytes))
  | _, [] => some []
  | 0, _ :: _ => none
  | fuel + 1, pc =>
    match getOp pc with
    | none => none
    | some (opcode, vch, pc) => (walk fuel pc).map ((opcode, vch) :: ·)

/-- `DecodeOP_N`, below its assertion. -/
def decodeOpN (opcode : Opcode) : ℕ :=
  if opcode = op0 then 0 else opcode.toNat - (op1.toNat - 1)

/-- The sum that a `CHECKSIG` or a `CHECKMULTISIG` adds in `GetSigOpCount`. -/
def sigOps (fAccurate : Bool) (lastOpcode opcode : Opcode) : UInt32 :=
  if opcode = opCheckSig ∨ opcode = opCheckSigVerify then 1
  else if opcode = opCheckMultiSig ∨ opcode = opCheckMultiSigVerify then
    if fAccurate ∧ lastOpcode ≥ op1 ∧ lastOpcode ≤ op16 then .ofNat (decodeOpN lastOpcode)
    else 20
  else 0

/-- The loop of `GetSigOpCount(bool)`, which adds to `n`. -/
def sigOpLoop (fAccurate : Bool) : ℕ → Opcode → Bytes → UInt32 → UInt32
  | 0, _, _, n => n
  | fuel + 1, lastOpcode, pc, n =>
    match getOp pc with
    | none => n
    | some (opcode, _, pc) =>
      sigOpLoop fAccurate fuel opcode pc (n + sigOps fAccurate lastOpcode opcode)

/-- `GetSigOpCount(bool)`. -/
def getSigOpCount (script : CScript) (fAccurate : Bool) : UInt32 :=
  sigOpLoop fAccurate script.length opInvalidOpcode script 0

/-- `IsPayToScriptHash`. -/
def isPayToScriptHash (script : CScript) : Bool :=
  script.length == 23 && script.getD 0 0 == opHash160 && script.getD 1 0 == 0x14 &&
    script.getD 22 0 == opEqual

/-- `IsPushOnly(const_iterator)`. -/
def isPushOnlyFrom : ℕ → Bytes → Bool
  | _, [] => true
  | 0, _ :: _ => false
  | fuel + 1, pc =>
    match getOp pc with
    | none => false
    | some (opcode, _, pc) => if opcode > op16 then false else isPushOnlyFrom fuel pc

/-- `IsPushOnly`. -/
def isPushOnly (script : CScript) : Bool := isPushOnlyFrom script.length script

/-- The loop of `GetSigOpCount(const CScript&)`: the operand of the last instruction, `data`
when there is none. -/
def lastPush : ℕ → Bytes → Bytes → Option Bytes
  | _, [], data => some data
  | 0, _ :: _, _ => none
  | fuel + 1, pc, _ =>
    match getOp pc with
    | none => none
    | some (opcode, vch, pc) => if opcode > op16 then none else lastPush fuel pc vch

/-- `GetSigOpCount(const CScript& scriptSig)`. -/
def getSigOpCountP2SH (scriptPubKey scriptSig : CScript) : UInt32 :=
  if isPayToScriptHash scriptPubKey then
    match lastPush scriptSig.length scriptSig [] with
    | none => 0
    | some data => getSigOpCount data true
  else getSigOpCount scriptPubKey true

/-- The loop of `FindAndDelete`: how often `b` was found from `pc` on, and the bytes from there
on without it. -/
def findLoop (b : Bytes) : ℕ → Bytes → ℕ × Bytes
  | 0, pc => (0, pc)
  | fuel + 1, pc =>
    if remaining pc ≥ b.length ∧ b.isPrefixOf pc then
      let (nFound, script) := findLoop b fuel (pc.drop b.length)
      (nFound + 1, script)
    else
      match getOp pc with
      | none => (0, pc)
      | some (_, _, rest) =>
        let (nFound, script) := findLoop b fuel rest
        (nFound, pc.take (pc.length - rest.length) ++ script)

/-- `FindAndDelete`: what it returns and the script that it leaves. -/
def findAndDelete (script b : CScript) : ℕ × CScript :=
  if b = [] then (0, script) else findLoop b (script.length + 1) script

/-! ## What an instruction takes -/

theorem remaining_of_lt {pc : Bytes} (h : pc.length < 2 ^ 31) : remaining pc = pc.length :=
  toInt32_of_lt (by omega) (by omega)

theorem remaining_le (pc : Bytes) : remaining pc ≤ pc.length := by
  rw [remaining, toInt32, Int.bmod_def]
  omega

theorem getOperand_eq_some {opcode op : Opcode} {nSize : ℕ} {pc vch rest : Bytes}
    (h : getOperand opcode nSize pc = (some (op, vch), rest)) :
    op = opcode ∧ vch.length = nSize ∧ pc = vch ++ rest := by
  unfold getOperand at h
  split_ifs at h with hlen
  · cases h
  · cases h
    have hle := remaining_le pc
    refine ⟨rfl, ?_, (List.take_append_drop nSize pc).symm⟩
    rw [List.length_take]
    omega

/-- An instruction is its opcode, the bytes of its size and its operand. -/
theorem exists_of_getOp {pc vch rest : Bytes} {opcode : Opcode}
    (h : getOp pc = some (opcode, vch, rest)) :
    ∃ size, pc = opcode :: size ++ vch ++ rest := by
  have h₂ : getOp2 pc = (some (opcode, vch), rest) := by
    unfold getOp at h
    split at h
    · obtain ⟨rfl, rfl, rfl⟩ : _ ∧ _ ∧ _ := by simpa using h
      assumption
    · cases h
  -- one case per width of the size
  have hwidth : ∀ {op : Opcode} {pc : Bytes} {k n : ℕ},
      getOperand op n (pc.drop k) = (some (opcode, vch), rest) →
      ∃ size, op :: pc = opcode :: size ++ vch ++ rest := by
    intro op pc k n hop
    obtain ⟨rfl, -, hdrop⟩ := getOperand_eq_some hop
    refine ⟨pc.take k, ?_⟩
    rw [List.cons_append, List.cons_append, List.append_assoc, ← hdrop, List.take_append_drop]
  unfold getOp2 at h₂
  split at h₂
  · cases h₂
  · rename_i op pc
    split_ifs at h₂
    · cases h₂
    · obtain ⟨rfl, -, rfl⟩ := getOperand_eq_some h₂
      exact ⟨[], rfl⟩
    · cases h₂
    · exact hwidth h₂
    · cases h₂
    · exact hwidth h₂
    · cases h₂
    · exact hwidth h₂
    · cases h₂
      exact ⟨[], rfl⟩

/-- **An instruction takes a byte at least.** -/
theorem length_lt_of_getOp {pc vch rest : Bytes} {opcode : Opcode}
    (h : getOp pc = some (opcode, vch, rest)) : rest.length < pc.length := by
  obtain ⟨size, rfl⟩ := exists_of_getOp h
  simp only [List.cons_append, List.length_cons, List.length_append]
  omega

/-- An opcode above the pushes has no operand. -/
theorem getOp_of_gt {opcode : Opcode} (h : opPushData4 < opcode) {pc : Bytes}
    (hlen : pc.length + 1 < 2 ^ 31) : getOp (opcode :: pc) = some (opcode, [], pc) := by
  have hrem : remaining (opcode :: pc) = (opcode :: pc).length := remaining_of_lt hlen
  rw [List.length_cons] at hrem
  rw [getOp, getOp2, if_neg (by omega), if_neg (UInt8.not_le.mpr h)]

end CScript
