/-
# The script interpreter

`EvalScript` and `VerifyScript` (`libs/server/script/interpreter.cpp`).

The local variables of `EvalScript`, and the stack that it works on, are the fields of a
`Machine`.  A stack is a list with its top first.  What ends the evaluation early is a `Halt`:
an error that is returned, an exception that is thrown, an assertion that fails, behaviour that
the language leaves undefined, and a loop that would not end.  Loops have fuel for the rounds
that they can take; running out of it is the last kind of halt.

The hashes and the test for a low `S` are parameters, as is the checker of signatures and lock
times.  `checkSigs` counts the calls of its `CheckSig`.
-/
import Hub.Halting
import Hub.Script

open ByteCodec Opcode Bytes Halting

namespace Script

/-! ## Errors, flags and what is given -/

/-- `ScriptError`. -/
inductive ScriptError
  | unknownError
  | evalFalse
  | opReturn
  | scriptSize
  | pushSize
  | opCount
  | stackSize
  | sigCount
  | pubkeyCount
  | invalidOperandSize
  | invalidNumberRange
  | impossibleEncoding
  | invalidSplitRange
  | verify
  | equalVerify
  | checkMultiSigVerify
  | checkSigVerify
  | numEqualVerify
  | badOpcode
  | disabledOpcode
  | invalidStackOperation
  | invalidAltStackOperation
  | unbalancedConditional
  | divByZero
  | modByZero
  | negativeLockTime
  | unsatisfiedLockTime
  | sigHashType
  | sigDer
  | minimalData
  | sigPushOnly
  | sigHighS
  | sigNullDummy
  | pubkeyType
  | cleanStack
  | sigNullFail
  | discourageUpgradableNops
  | illegalForkId
  | mustUseForkId
  deriving DecidableEq

/-- How an evaluation ends early. -/
inductive Halt
  /-- `return set_error(serror, e)`. -/
  | error (e : ScriptError)
  /-- A `scriptnum_error` is thrown. -/
  | scriptnum (what : String)
  /-- `std::out_of_range` is thrown by `at`. -/
  | outOfRange
  /-- The exception of `popstack`. -/
  | stackEmpty
  /-- An assertion fails. -/
  | assertion (what : String)
  /-- Undefined behaviour. -/
  | undefined
  /-- A loop goes on for ever. -/
  | endless
  deriving DecidableEq

/-- The halts that are exceptions. -/
def Halt.IsThrown : Halt → Prop
  | .scriptnum _ | .outOfRange | .stackEmpty => True
  | _ => False

instance : DecidablePred Halt.IsThrown
  | .scriptnum _ => .isTrue trivial
  | .outOfRange => .isTrue trivial
  | .stackEmpty => .isTrue trivial
  | .error _ => .isFalse id
  | .assertion _ => .isFalse id
  | .undefined => .isFalse id
  | .endless => .isFalse id

/-- A set of verification flags. -/
abbrev Flags := UInt32

def verifyP2SH : Flags := 0x1
def verifyStrictEnc : Flags := 0x2
def verifyDerSig : Flags := 0x4
def verifyLowS : Flags := 0x8
def verifyNullDummy : Flags := 0x10
def verifySigPushOnly : Flags := 0x20
def verifyMinimalData : Flags := 0x40
def verifyDiscourageUpgradableNops : Flags := 0x80
def verifyCleanStack : Flags := 0x100
def verifyCheckLockTimeVerify : Flags := 0x200
def verifyCheckSequenceVerify : Flags := 0x400
def verifyNullFail : Flags := 0x4000
def enableSigHashForkId : Flags := 0x10000

/-- `(flags & bit) != 0`. -/
def Flags.has (flags bit : Flags) : Bool := flags &&& bit != 0

/-- `BaseSignatureChecker`. -/
structure BaseSignatureChecker where
  checkSig (scriptSig vchPubKey : Bytes) (scriptCode : CScript) (flags : Flags) : Bool
  checkLockTime (nLockTime : CScriptNum) : Bool
  checkSequence (nSequence : CScriptNum) : Bool

/-- The hashes, and `CPubKey::CheckLowS`. -/
structure Crypto where
  ripemd160 (data : Bytes) : Vector UInt8 20
  sha1 (data : Bytes) : Vector UInt8 20
  sha256 (data : Bytes) : Vector UInt8 32
  hash160 (data : Bytes) : Vector UInt8 20
  hash256 (data : Bytes) : Vector UInt8 32
  checkLowS (vchSig : Bytes) : Bool

/-! ## The machine -/

/-- The variables of an evaluation, and the number of calls of `CheckSig`. -/
structure Machine where
  stack : List Bytes := []
  altstack : List Bytes := []
  vfExec : List Bool := []
  pc : Bytes := []
  pbegincodehash : Bytes := []
  nOpCount : ℕ := 0
  checkSigs : ℕ := 0
  deriving DecidableEq

/-- A part of an evaluation. -/
abbrev Prog (α : Type) := EStateM Halt Machine α

/-- `return set_error(serror, e)` when `c` holds. -/
def failIf (c : Prop) [Decidable c] (e : ScriptError) : Prog Unit := haltIf c (.error e)

/-- The top `k` elements are there, or `e`. -/
def require (k : ℕ) (e : ScriptError) : Prog Unit := do
  let m ← get
  failIf (m.stack.length < k) e

/-- `v.at(v.size() + i)` of a vector whose last element is the first of the list.  An index
below zero wraps around to one that is out of range. -/
def at? {α : Type} (v : List α) (i : ℤ) : Option α := if i < 0 then v[(-i - 1).toNat]? else none

/-- `stacktop(i)`. -/
def stacktop (i : ℤ) : Prog Bytes := do
  let m ← get
  match at? m.stack i with
  | some vch => pure vch
  | none => throw .outOfRange

/-- `stacktop(i) = vch`. -/
def setStacktop (i : ℤ) (vch : Bytes) : Prog Unit := do
  let _ ← stacktop i
  modify fun m => { m with stack := m.stack.set (-i - 1).toNat vch }

/-- `swap(stacktop(i), stacktop(j))`. -/
def swapStacktop (i j : ℤ) : Prog Unit := do
  let vch1 ← stacktop i
  let vch2 ← stacktop j
  setStacktop i vch2
  setStacktop j vch1

/-- `stack.push_back(vch)`. -/
def pushBack (vch : Bytes) : Prog Unit := modify fun m => { m with stack := vch :: m.stack }

/-- `popstack(stack)`. -/
def popstack : Prog Unit := do
  let m ← get
  haltIf (m.stack = []) .stackEmpty
  modify fun m => { m with stack := m.stack.tail }

/-- `altstacktop(i)`. -/
def altstacktop (i : ℤ) : Prog Bytes := do
  let m ← get
  match at? m.altstack i with
  | some vch => pure vch
  | none => throw .outOfRange

/-- `altstack.push_back(vch)`. -/
def pushBackAlt (vch : Bytes) : Prog Unit :=
  modify fun m => { m with altstack := vch :: m.altstack }

/-- `popstack(altstack)`. -/
def popAltstack : Prog Unit := do
  let m ← get
  haltIf (m.altstack = []) .stackEmpty
  modify fun m => { m with altstack := m.altstack.tail }

/-- `stack.erase(stack.end() - a, stack.end() - b)`. -/
def erase (a b : ℕ) : Prog Unit := do
  let m ← get
  haltIf (m.stack.length < a ∨ a < b) .undefined
  modify fun m => { m with stack := m.stack.take b ++ m.stack.drop a }

/-- `stack.insert(stack.end() - a, vch)`. -/
def insert (a : ℕ) (vch : Bytes) : Prog Unit := do
  let m ← get
  haltIf (m.stack.length < a) .undefined
  modify fun m => { m with stack := m.stack.take a ++ vch :: m.stack.drop a }

/-- `(int)stack.size()`. -/
def intSize : Prog ℤ := do
  let m ← get
  pure (toInt32 m.stack.length)

/-! ## Numbers -/

/-- The result of 64-bit arithmetic, which must not overflow. -/
def int64 (n : ℤ) : Prog CScriptNum := do
  haltIf (¬ CScriptNum.InInt64 n) .undefined
  pure ⟨n⟩

/-- `CScriptNum(vch, fRequireMinimal, nMaxNumSize)`. -/
def scriptNum (flags : Flags) (vch : Bytes) (nMaxNumSize : ℕ) : Prog CScriptNum := do
  haltIf (vch.length > nMaxNumSize) (.scriptnum "script number overflow")
  haltIf (flags.has verifyMinimalData ∧ ¬ CScriptNum.isSmallestFormat vch nMaxNumSize)
    (.scriptnum "non-minimally encoded script number")
  pure ⟨CScriptNum.setVch vch⟩

/-- `nDefaultMaxNumSize`. -/
def defaultMaxNumSize : ℕ := 4

/-- `operator+=`. -/
def addAssign (bn : CScriptNum) (rhs : ℤ) : Prog CScriptNum := do
  haltIf (¬ (rhs = 0 ∨ (rhs > 0 ∧ bn.m_value ≤ (2 ^ 63 - 1) - rhs) ∨
    (rhs < 0 ∧ bn.m_value ≥ -2 ^ 63 - rhs))) (.assertion "operator+=")
  int64 (bn.m_value + rhs)

/-- `operator-=`. -/
def subAssign (bn : CScriptNum) (rhs : ℤ) : Prog CScriptNum := do
  haltIf (¬ (rhs = 0 ∨ (rhs > 0 ∧ bn.m_value ≥ -2 ^ 63 + rhs) ∨
    (rhs < 0 ∧ bn.m_value ≤ (2 ^ 63 - 1) + rhs))) (.assertion "operator-=")
  int64 (bn.m_value - rhs)

/-- `operator-()`. -/
def negate (bn : CScriptNum) : Prog CScriptNum := do
  haltIf (bn.m_value = -2 ^ 63) (.assertion "operator-")
  int64 (-bn.m_value)

/-- `operator/`. -/
def divide (bn1 bn2 : CScriptNum) : Prog CScriptNum := do
  haltIf (bn2.m_value = 0) .undefined
  int64 (bn1.m_value.tdiv bn2.m_value)

/-- `operator%`, which is undefined where the quotient is. -/
def modulo (bn1 bn2 : CScriptNum) : Prog CScriptNum := do
  haltIf (bn2.m_value = 0) .undefined
  let _ ← int64 (bn1.m_value.tdiv bn2.m_value)
  int64 (bn1.m_value.tmod bn2.m_value)

/-- A truth value as a number. -/
def ofBool (b : Bool) : CScriptNum := ⟨if b then 1 else 0⟩

/-- The inner `switch` of the unary operations. -/
def unaryValue (opcode : Opcode) (bn : CScriptNum) : Prog CScriptNum :=
  if opcode = op1Add then addAssign bn 1
  else if opcode = op1Sub then subAssign bn 1
  else if opcode = opNegate then negate bn
  else if opcode = opAbs then if bn.m_value < 0 then negate bn else pure bn
  else if opcode = opNot then pure (ofBool (bn.m_value = 0))
  else if opcode = op0NotEqual then pure (ofBool (bn.m_value ≠ 0))
  else throw (.assertion "invalid opcode")

/-- The inner `switch` of the binary operations. -/
def binaryValue (opcode : Opcode) (bn1 bn2 : CScriptNum) : Prog CScriptNum :=
  if opcode = opAdd then int64 (bn1.m_value + bn2.m_value)
  else if opcode = opSub then int64 (bn1.m_value - bn2.m_value)
  else if opcode = opDiv then do
    failIf (bn2.m_value = 0) .divByZero
    divide bn1 bn2
  else if opcode = opMod then do
    failIf (bn2.m_value = 0) .modByZero
    modulo bn1 bn2
  else if opcode = opBoolAnd then pure (ofBool (bn1.m_value ≠ 0 ∧ bn2.m_value ≠ 0))
  else if opcode = opBoolOr then pure (ofBool (bn1.m_value ≠ 0 ∨ bn2.m_value ≠ 0))
  else if opcode = opNumEqual then pure (ofBool (bn1.m_value = bn2.m_value))
  else if opcode = opNumEqualVerify then pure (ofBool (bn1.m_value = bn2.m_value))
  else if opcode = opNumNotEqual then pure (ofBool (bn1.m_value ≠ bn2.m_value))
  else if opcode = opLessThan then pure (ofBool (bn1.m_value < bn2.m_value))
  else if opcode = opGreaterThan then pure (ofBool (bn1.m_value > bn2.m_value))
  else if opcode = opLessThanOrEqual then pure (ofBool (bn1.m_value ≤ bn2.m_value))
  else if opcode = opGreaterThanOrEqual then pure (ofBool (bn1.m_value ≥ bn2.m_value))
  else if opcode = opMin then pure (if bn1.m_value < bn2.m_value then bn1 else bn2)
  else if opcode = opMax then pure (if bn1.m_value > bn2.m_value then bn1 else bn2)
  else throw (.assertion "invalid opcode")

/-! ## Encodings -/

/-- `CastToBool`: some byte is not zero, a last byte `0x80` after zeros apart. -/
def castToBool : Bytes → Bool
  | [] => false
  | [b] => b != 0 && b != 0x80
  | b :: bs => b != 0 || castToBool bs

/-- `GetHashType`. -/
def getHashType (vchSig : Bytes) : UInt32 := if vchSig = [] then 0 else (back vchSig).toUInt32

def sigHashAll : UInt32 := 1
def sigHashNone : UInt32 := 2
def sigHashSingle : UInt32 := 3
def sigHashForkId : UInt32 := 0x40
def sigHashAnyoneCanPay : UInt32 := 0x80

/-- `CleanupScriptCode`. -/
def cleanupScriptCode (flags : Flags) (scriptCode : CScript) (vchSig : Bytes) : CScript :=
  if ¬ flags.has enableSigHashForkId ∨ getHashType vchSig &&& sigHashForkId = 0 then
    (CScript.findAndDelete scriptCode (CScript.pushVector [] vchSig)).2
  else scriptCode

/-- `IsCompressedOrUncompressedPubKey`. -/
def isCompressedOrUncompressedPubKey (vchPubKey : Bytes) : Bool :=
  if vchPubKey.length < 33 then false
  else if vchPubKey.getD 0 0 = 0x04 then vchPubKey.length == 65
  else if vchPubKey.getD 0 0 = 0x02 ∨ vchPubKey.getD 0 0 = 0x03 then vchPubKey.length == 33
  else false

/-- `len > 1 && sig[i] == 0x00 && !(sig[i + 1] & 0x80)`; nothing is returned when it reads
outside `sig`. -/
def hasNullStart (sig : Bytes) (len i : ℕ) : Option Bool :=
  if len > 1 then
    sig[i]?.bind fun b =>
      if b = 0x00 then sig[i + 1]?.map fun c => c &&& 0x80 == 0 else some false
  else some false

/-- `IsValidSignatureEncoding` after the tests of the lengths of `R` and `S`. -/
def areValidIntegers (sig : Bytes) (lenR lenS : ℕ) : Option Bool :=
  sig[2]?.bind fun b => if b ≠ 0x02 then some false else
  if lenR = 0 then some false else
  sig[4]?.bind fun b => if b &&& 0x80 ≠ 0 then some false else
  (hasNullStart sig lenR 4).bind fun null => if null then some false else
  sig[lenR + 4]?.bind fun b => if b ≠ 0x02 then some false else
  if lenS = 0 then some false else
  sig[lenR + 6]?.bind fun b => if b &&& 0x80 ≠ 0 then some false else
  (hasNullStart sig lenS (lenR + 6)).map fun null => !null

/-- `IsValidSignatureEncoding`; nothing is returned when it reads outside `sig`. -/
def isValidSignatureEncoding (sig : Bytes) : Option Bool :=
  if sig.length < 9 then some false else
  if sig.length > 73 then some false else
  sig[0]?.bind fun b => if b ≠ 0x30 then some false else
  sig[1]?.bind fun b => if b.toNat ≠ sig.length - 3 then some false else
  sig[3]?.bind fun lenR => if 5 + lenR.toNat ≥ sig.length then some false else
  sig[5 + lenR.toNat]?.bind fun lenS =>
  if lenR.toNat + lenS.toNat + 7 ≠ sig.length then some false else
  areValidIntegers sig lenR.toNat lenS.toNat

/-- `IsDefinedHashtypeSignature`. -/
def isDefinedHashtypeSignature (vchSig : Bytes) : Bool :=
  if vchSig = [] then false
  else
    let nHashType := getHashType vchSig &&& ~~~(sigHashAnyoneCanPay ||| sigHashForkId)
    !(nHashType < sigHashAll || nHashType > sigHashSingle)

section

variable (crypto : Crypto) (flags : Flags)

/-- `return set_error(serror, e)` when a signature is not well encoded. -/
def requireValidEncoding (vchSig : Bytes) : Prog Unit :=
  match isValidSignatureEncoding vchSig with
  | some valid => failIf (¬ valid) .sigDer
  | none => throw .undefined

/-- `IsLowDERSignature`. -/
def isLowDERSignature (vchSig : Bytes) : Prog Unit := do
  requireValidEncoding vchSig
  failIf (¬ crypto.checkLowS vchSig.dropLast) .sigHighS

/-- The part of `CheckSignatureEncoding` for `SCRIPT_VERIFY_STRICTENC`. -/
def checkHashType (vchSig : Bytes) : Prog Unit := do
  failIf (¬ isDefinedHashtypeSignature vchSig) .sigHashType
  failIf (¬ flags.has enableSigHashForkId ∧ getHashType vchSig &&& sigHashForkId ≠ 0)
    .illegalForkId
  failIf (flags.has enableSigHashForkId ∧ getHashType vchSig &&& sigHashForkId = 0)
    .mustUseForkId

/-- `CheckSignatureEncoding`. -/
def checkSignatureEncoding (vchSig : Bytes) : Prog Unit :=
  doIf (vchSig ≠ []) do
    doIf (flags.has (verifyDerSig ||| verifyLowS ||| verifyStrictEnc))
      (requireValidEncoding vchSig)
    doIf (flags.has verifyLowS) (isLowDERSignature crypto vchSig)
    doIf (flags.has verifyStrictEnc) (checkHashType flags vchSig)

/-- `CheckPubKeyEncoding`. -/
def checkPubKeyEncoding (vchPubKey : Bytes) : Prog Unit :=
  failIf (flags.has verifyStrictEnc ∧ ¬ isCompressedOrUncompressedPubKey vchPubKey) .pubkeyType

end

/-- `CheckMinimalPush`. -/
def checkMinimalPush (data : Bytes) (opcode : Opcode) : Bool :=
  if data.length = 0 then opcode == op0
  else if data.length = 1 ∧ data.getD 0 0 ≥ 1 ∧ data.getD 0 0 ≤ 16 then
    opcode == op1 + (data.getD 0 0 - 1)
  else if data.length = 1 ∧ data.getD 0 0 = 0x81 then opcode == op1Negate
  else if data.length ≤ 75 then opcode.toNat == data.length
  else if data.length ≤ 255 then opcode == opPushData1
  else if data.length ≤ 65535 then opcode == opPushData2
  else true

/-! ## The operations -/

def vchFalse : Bytes := []
def vchTrue : Bytes := [1]

/-- `fSuccess ? vchTrue : vchFalse`. -/
def vchOf (fSuccess : Bool) : Bytes := if fSuccess then vchTrue else vchFalse

/-- The end of the operations that come with a `VERIFY`: the result goes off the stack again,
or is the error `e`. -/
def verifyResult (fSuccess : Bool) (e : ScriptError) : Prog Unit := do
  failIf (¬ fSuccess) e
  popstack

section

variable (crypto : Crypto) (checker : BaseSignatureChecker) (flags : Flags)

/-- `checker.CheckSig`. -/
def checkSig (vchSig vchPubKey : Bytes) (scriptCode : CScript) : Prog Bool := do
  modify fun m => { m with checkSigs := m.checkSigs + 1 }
  pure (checker.checkSig vchSig vchPubKey scriptCode flags)

/-- `OP_1NEGATE` and `OP_1` to `OP_16`. -/
def pushNumber (opcode : Opcode) : Prog Unit :=
  pushBack (CScriptNum.getvch ⟨opcode.toNat - (op1.toNat - 1)⟩)

/-- What the two lock time operations do when they are not enabled. -/
def notEnabled : Prog Unit :=
  failIf (flags.has verifyDiscourageUpgradableNops) .discourageUpgradableNops

/-- `OP_CHECKLOCKTIMEVERIFY`. -/
def checkLockTimeVerify : Prog Unit :=
  if ¬ flags.has verifyCheckLockTimeVerify then notEnabled flags
  else do
    require 1 .invalidStackOperation
    let nLockTime ← scriptNum flags (← stacktop (-1)) 5
    failIf (nLockTime.m_value < 0) .negativeLockTime
    failIf (¬ checker.checkLockTime nLockTime) .unsatisfiedLockTime

/-- `CTxIn::SEQUENCE_LOCKTIME_DISABLE_FLAG`. -/
def sequenceLocktimeDisableFlag : ℕ := 0x80000000

/-- `OP_CHECKSEQUENCEVERIFY`. -/
def checkSequenceVerify : Prog Unit :=
  if ¬ flags.has verifyCheckSequenceVerify then notEnabled flags
  else do
    require 1 .invalidStackOperation
    let nSequence ← scriptNum flags (← stacktop (-1)) 5
    failIf (nSequence.m_value < 0) .negativeLockTime
    doIf (nSequence.m_value.toNat &&& sequenceLocktimeDisableFlag = 0)
      (failIf (¬ checker.checkSequence nSequence) .unsatisfiedLockTime)

/-- `OP_IF` and `OP_NOTIF`. -/
def ifOrNotIf (opcode : Opcode) (fExec : Bool) : Prog Unit :=
  if fExec then do
    require 1 .unbalancedConditional
    let fValue := castToBool (← stacktop (-1))
    popstack
    modify fun m => { m with
      vfExec := (if opcode = opNotIf then !fValue else fValue) :: m.vfExec }
  else modify fun m => { m with vfExec := false :: m.vfExec }

/-- `OP_ELSE`. -/
def elseBranch : Prog Unit := do
  let m ← get
  failIf (m.vfExec = []) .unbalancedConditional
  modify fun m => { m with vfExec := (!m.vfExec.headD false) :: m.vfExec.tail }

/-- `OP_ENDIF`. -/
def endIf : Prog Unit := do
  let m ← get
  failIf (m.vfExec = []) .unbalancedConditional
  modify fun m => { m with vfExec := m.vfExec.tail }

/-- `OP_VERIFY`. -/
def verify : Prog Unit := do
  require 1 .invalidStackOperation
  verifyResult (castToBool (← stacktop (-1))) .verify

/-- `OP_TOALTSTACK`. -/
def toAltStack : Prog Unit := do
  require 1 .invalidStackOperation
  pushBackAlt (← stacktop (-1))
  popstack

/-- `OP_FROMALTSTACK`. -/
def fromAltStack : Prog Unit := do
  let m ← get
  failIf (m.altstack.length < 1) .invalidAltStackOperation
  pushBack (← altstacktop (-1))
  popAltstack

/-- `OP_2DROP`. -/
def twoDrop : Prog Unit := do
  require 2 .invalidStackOperation
  popstack
  popstack

/-- `OP_2DUP`. -/
def twoDup : Prog Unit := do
  require 2 .invalidStackOperation
  let vch1 ← stacktop (-2)
  let vch2 ← stacktop (-1)
  pushBack vch1
  pushBack vch2

/-- `OP_3DUP`. -/
def threeDup : Prog Unit := do
  require 3 .invalidStackOperation
  let vch1 ← stacktop (-3)
  let vch2 ← stacktop (-2)
  let vch3 ← stacktop (-1)
  pushBack vch1
  pushBack vch2
  pushBack vch3

/-- `OP_2OVER`. -/
def twoOver : Prog Unit := do
  require 4 .invalidStackOperation
  let vch1 ← stacktop (-4)
  let vch2 ← stacktop (-3)
  pushBack vch1
  pushBack vch2

/-- `OP_2ROT`. -/
def twoRot : Prog Unit := do
  require 6 .invalidStackOperation
  let vch1 ← stacktop (-6)
  let vch2 ← stacktop (-5)
  erase 6 4
  pushBack vch1
  pushBack vch2

/-- `OP_2SWAP`. -/
def twoSwap : Prog Unit := do
  require 4 .invalidStackOperation
  swapStacktop (-4) (-2)
  swapStacktop (-3) (-1)

/-- `OP_IFDUP`. -/
def ifDup : Prog Unit := do
  require 1 .invalidStackOperation
  let vch ← stacktop (-1)
  doIf (castToBool vch) (pushBack vch)

/-- `OP_DEPTH`. -/
def depth : Prog Unit := do
  let m ← get
  pushBack (CScriptNum.getvch ⟨m.stack.length⟩)

/-- `OP_DROP`. -/
def drop : Prog Unit := do
  require 1 .invalidStackOperation
  popstack

/-- `OP_DUP`. -/
def dup : Prog Unit := do
  require 1 .invalidStackOperation
  pushBack (← stacktop (-1))

/-- `OP_NIP`. -/
def nip : Prog Unit := do
  require 2 .invalidStackOperation
  erase 2 1

/-- `OP_OVER`. -/
def overOp : Prog Unit := do
  require 2 .invalidStackOperation
  pushBack (← stacktop (-2))

/-- `OP_PICK` and `OP_ROLL`. -/
def pickOrRoll (opcode : Opcode) : Prog Unit := do
  require 2 .invalidStackOperation
  let n := (← scriptNum flags (← stacktop (-1)) defaultMaxNumSize).getint
  popstack
  failIf (n < 0 ∨ n ≥ (← intSize)) .invalidStackOperation
  let vch ← stacktop (-n - 1)
  doIf (opcode = opRoll) (erase (n + 1).toNat n.toNat)
  pushBack vch

/-- `OP_ROT`. -/
def rot : Prog Unit := do
  require 3 .invalidStackOperation
  swapStacktop (-3) (-2)
  swapStacktop (-2) (-1)

/-- `OP_SWAP`. -/
def swap : Prog Unit := do
  require 2 .invalidStackOperation
  swapStacktop (-2) (-1)

/-- `OP_TUCK`. -/
def tuck : Prog Unit := do
  require 2 .invalidStackOperation
  let vch ← stacktop (-1)
  insert 2 vch

/-- `OP_SIZE`. -/
def size : Prog Unit := do
  require 1 .invalidStackOperation
  let vch ← stacktop (-1)
  pushBack (CScriptNum.getvch ⟨vch.length⟩)

/-- The byte operation of `OP_AND`, `OP_OR` and `OP_XOR`. -/
def bitwiseByte (opcode : Opcode) (b c : UInt8) : UInt8 :=
  if opcode = opAnd then b &&& c
  else if opcode = opOr then b ||| c
  else if opcode = opXor then b ^^^ c
  else b

/-- `OP_AND`, `OP_OR` and `OP_XOR`. -/
def bitwise (opcode : Opcode) : Prog Unit := do
  require 2 .invalidStackOperation
  let vch1 ← stacktop (-2)
  let vch2 ← stacktop (-1)
  failIf (vch1.length ≠ vch2.length) .invalidOperandSize
  setStacktop (-2) (List.zipWith (bitwiseByte opcode) vch1 vch2)
  popstack

/-- `OP_EQUAL` and `OP_EQUALVERIFY`. -/
def equal (opcode : Opcode) : Prog Unit := do
  require 2 .invalidStackOperation
  let vch1 ← stacktop (-2)
  let vch2 ← stacktop (-1)
  let fEqual := vch1 == vch2
  popstack
  popstack
  pushBack (vchOf fEqual)
  doIf (opcode = opEqualVerify) (verifyResult fEqual .equalVerify)

/-- The operations on one number. -/
def unary (opcode : Opcode) : Prog Unit := do
  require 1 .invalidStackOperation
  let bn ← scriptNum flags (← stacktop (-1)) defaultMaxNumSize
  let bn ← unaryValue opcode bn
  popstack
  pushBack bn.getvch

/-- The operations on two numbers. -/
def binary (opcode : Opcode) : Prog Unit := do
  require 2 .invalidStackOperation
  let bn1 ← scriptNum flags (← stacktop (-2)) defaultMaxNumSize
  let bn2 ← scriptNum flags (← stacktop (-1)) defaultMaxNumSize
  let bn ← binaryValue opcode bn1 bn2
  popstack
  popstack
  pushBack bn.getvch
  doIf (opcode = opNumEqualVerify) do
    verifyResult (castToBool (← stacktop (-1))) .numEqualVerify

/-- `OP_WITHIN`. -/
def within : Prog Unit := do
  require 3 .invalidStackOperation
  let bn1 ← scriptNum flags (← stacktop (-3)) defaultMaxNumSize
  let bn2 ← scriptNum flags (← stacktop (-2)) defaultMaxNumSize
  let bn3 ← scriptNum flags (← stacktop (-1)) defaultMaxNumSize
  popstack
  popstack
  popstack
  pushBack (vchOf (bn2.m_value ≤ bn1.m_value && bn1.m_value < bn3.m_value))

/-- The hash that an opcode asks for. -/
def hashValue (opcode : Opcode) (vch : Bytes) : Bytes :=
  if opcode = opRipemd160 then (crypto.ripemd160 vch).toList
  else if opcode = opSha1 then (crypto.sha1 vch).toList
  else if opcode = opSha256 then (crypto.sha256 vch).toList
  else if opcode = opHash160 then (crypto.hash160 vch).toList
  else (crypto.hash256 vch).toList

/-- The hash operations. -/
def hash (opcode : Opcode) : Prog Unit := do
  require 1 .invalidStackOperation
  let vch ← stacktop (-1)
  popstack
  pushBack (hashValue crypto opcode vch)

/-- `OP_CODESEPARATOR`. -/
def codeSeparator : Prog Unit := modify fun m => { m with pbegincodehash := m.pc }

/-- `OP_CHECKSIG` and `OP_CHECKSIGVERIFY`. -/
def checkSigOp (opcode : Opcode) : Prog Unit := do
  require 2 .invalidStackOperation
  let vchSig ← stacktop (-2)
  let vchPubKey ← stacktop (-1)
  checkSignatureEncoding crypto flags vchSig
  checkPubKeyEncoding flags vchPubKey
  let m ← get
  let fSuccess ← checkSig checker flags vchSig vchPubKey
    (cleanupScriptCode flags m.pbegincodehash vchSig)
  failIf (¬ fSuccess ∧ flags.has verifyNullFail ∧ vchSig ≠ []) .sigNullFail
  popstack
  popstack
  pushBack (vchOf fSuccess)
  doIf (opcode = opCheckSigVerify) (verifyResult fSuccess .checkSigVerify)

/-- The signatures of `OP_CHECKMULTISIG` from `isig` on are dropped from the script. -/
def dropSignatures : ℕ → ℤ → CScript → Prog CScript
  | 0, _, scriptCode => pure scriptCode
  | k + 1, isig, scriptCode => do
    let vchSig ← stacktop (-isig)
    dropSignatures k (isig + 1) (cleanupScriptCode flags scriptCode vchSig)

/-- The loop of `OP_CHECKMULTISIG` that matches signatures with keys: `fSuccess`. -/
def matchSignatures (scriptCode : CScript) : ℕ → ℤ → ℤ → ℤ → ℤ → Prog Bool
  | 0, _, _, nSigsCount, _ => do
    haltIf (nSigsCount > 0) .endless
    pure true
  | fuel + 1, isig, ikey, nSigsCount, nKeysCount =>
    if nSigsCount > 0 then do
      let vchSig ← stacktop (-isig)
      let vchPubKey ← stacktop (-ikey)
      checkSignatureEncoding crypto flags vchSig
      checkPubKeyEncoding flags vchPubKey
      let fOk ← checkSig checker flags vchSig vchPubKey scriptCode
      let isig := if fOk then isig + 1 else isig
      let nSigsCount := if fOk then nSigsCount - 1 else nSigsCount
      if nSigsCount > nKeysCount - 1 then pure false
      else matchSignatures scriptCode fuel isig (ikey + 1) nSigsCount (nKeysCount - 1)
    else pure true

/-- The loop of `OP_CHECKMULTISIG` that takes `k` arguments off the stack. -/
def dropArguments (fSuccess : Bool) : ℕ → ℤ → Prog Unit
  | 0, _ => pure ()
  | k + 1, ikey2 => do
    doIf (¬ fSuccess ∧ flags.has verifyNullFail ∧ ikey2 = 0) do
      let vch ← stacktop (-1)
      failIf (vch ≠ []) .sigNullFail
    popstack
    dropArguments fSuccess k (if ikey2 > 0 then ikey2 - 1 else ikey2)

/-- The first part of `OP_CHECKMULTISIG`: `nKeysCount`. -/
def readKeysCount : Prog ℤ := do
  failIf ((← intSize) < 1) .invalidStackOperation
  let nKeysCount := (← scriptNum flags (← stacktop (-1)) defaultMaxNumSize).getint
  failIf (nKeysCount < 0 ∨ nKeysCount > 20) .pubkeyCount
  modify fun m => { m with nOpCount := m.nOpCount + nKeysCount.toNat }
  failIf ((← get).nOpCount > 201) .opCount
  pure nKeysCount

/-- The second part of `OP_CHECKMULTISIG`: `nSigsCount`, which stands behind the keys. -/
def readSigsCount (nKeysCount : ℤ) : Prog ℤ := do
  failIf ((← intSize) < 2 + nKeysCount) .invalidStackOperation
  let nSigsCount :=
    (← scriptNum flags (← stacktop (-(2 + nKeysCount))) defaultMaxNumSize).getint
  failIf (nSigsCount < 0 ∨ nSigsCount > nKeysCount) .sigCount
  failIf ((← intSize) < 3 + nKeysCount + nSigsCount) .invalidStackOperation
  pure nSigsCount

/-- The third part of `OP_CHECKMULTISIG`: `fSuccess`.  The keys start at `ikey = 2`, and the
signatures at `isig = 3 + nKeysCount`. -/
def matchAll (nKeysCount nSigsCount : ℤ) : Prog Bool := do
  let m ← get
  let scriptCode ← dropSignatures flags nSigsCount.toNat (3 + nKeysCount) m.pbegincodehash
  matchSignatures crypto checker flags scriptCode nKeysCount.toNat (3 + nKeysCount) 2
    nSigsCount nKeysCount

/-- The test of the extra argument of `OP_CHECKMULTISIG`. -/
def checkDummy : Prog Unit := do
  require 1 .invalidStackOperation
  doIf (flags.has verifyNullDummy) do
    let vch ← stacktop (-1)
    failIf (vch ≠ []) .sigNullDummy

/-- `OP_CHECKMULTISIG` from the number of keys on. -/
def checkMultiSigWith (opcode : Opcode) (nKeysCount : ℤ) : Prog Unit := do
  let nSigsCount ← readSigsCount flags nKeysCount
  let fSuccess ← matchAll crypto checker flags nKeysCount nSigsCount
  dropArguments flags fSuccess (2 + nKeysCount + nSigsCount).toNat (nKeysCount + 2)
  checkDummy flags
  popstack
  pushBack (vchOf fSuccess)
  doIf (opcode = opCheckMultiSigVerify) (verifyResult fSuccess .checkMultiSigVerify)

/-- `OP_CHECKMULTISIG` and `OP_CHECKMULTISIGVERIFY`. -/
def checkMultiSig (opcode : Opcode) : Prog Unit := do
  let nKeysCount ← readKeysCount flags
  checkMultiSigWith crypto checker flags opcode nKeysCount

/-- `MAX_SCRIPT_ELEMENT_SIZE`. -/
def maxScriptElementSize : ℕ := 520

/-- `OP_CAT`. -/
def cat : Prog Unit := do
  require 2 .invalidStackOperation
  let vch1 ← stacktop (-2)
  let vch2 ← stacktop (-1)
  failIf (vch1.length + vch2.length > maxScriptElementSize) .pushSize
  setStacktop (-2) (vch1 ++ vch2)
  popstack

/-- An `int` as a `uint64_t`. -/
def toUInt64 (n : ℤ) : ℕ := (n % 2 ^ 64).toNat

/-- `OP_SPLIT`. -/
def split : Prog Unit := do
  require 2 .invalidStackOperation
  let data ← stacktop (-2)
  let position := toUInt64 (← scriptNum flags (← stacktop (-1)) defaultMaxNumSize).getint
  failIf (position > data.length) .invalidSplitRange
  setStacktop (-2) (data.take position)
  setStacktop (-1) (data.drop position)

/-- `OP_BIN2NUM`. -/
def bin2num : Prog Unit := do
  require 1 .invalidStackOperation
  let n := CScriptNum.createSmallestFormat (← stacktop (-1))
  setStacktop (-1) n
  failIf (¬ CScriptNum.isSmallestFormat n defaultMaxNumSize) .invalidNumberRange

/-- The end of `OP_NUM2BIN`: a number that is too short gets zeros, and its sign in the last
byte. -/
def pad (rawnum : Bytes) (size : ℕ) : Bytes :=
  let signbit := if rawnum = [] then 0x00 else back rawnum &&& 0x80
  let unsigned := if rawnum = [] then [] else setBack rawnum (back rawnum &&& 0x7f)
  unsigned ++ List.replicate (size - 1 - unsigned.length) 0x00 ++ [signbit]

/-- `OP_NUM2BIN`. -/
def num2bin : Prog Unit := do
  require 2 .invalidStackOperation
  let size := toUInt64 (← scriptNum flags (← stacktop (-1)) defaultMaxNumSize).getint
  failIf (size > maxScriptElementSize) .pushSize
  popstack
  let rawnum := CScriptNum.createSmallestFormat (← stacktop (-1))
  setStacktop (-1) rawnum
  failIf (rawnum.length > size) .impossibleEncoding
  doIf (rawnum.length ≠ size) (setStacktop (-1) (pad rawnum size))

/-! ## Evaluation -/

/-- The cases of the `switch` over the opcodes. -/
inductive Case
  | pushNumber
  | nop
  | checkLockTimeVerify
  | checkSequenceVerify
  | upgradableNop
  | ifOrNotIf
  | elseBranch
  | endIf
  | verify
  | opReturn
  | toAltStack
  | fromAltStack
  | twoDrop
  | twoDup
  | threeDup
  | twoOver
  | twoRot
  | twoSwap
  | ifDup
  | depth
  | drop
  | dup
  | nip
  | overOp
  | pickOrRoll
  | rot
  | swap
  | tuck
  | size
  | bitwise
  | equal
  | unary
  | binary
  | within
  | hash
  | codeSeparator
  | checkSig
  | checkMultiSig
  | cat
  | split
  | bin2num
  | num2bin
  | default
  deriving DecidableEq

/-- The case that an opcode belongs to. -/
def caseOf (opcode : Opcode) : Case :=
  if opcode = op1Negate ∨ (op1 ≤ opcode ∧ opcode ≤ op16) then .pushNumber
  else if opcode = opNop then .nop
  else if opcode = opCheckLockTimeVerify then .checkLockTimeVerify
  else if opcode = opCheckSequenceVerify then .checkSequenceVerify
  else if opcode = opNop1 ∨ opcode = opNop4 ∨ opcode = opNop5 ∨ opcode = opNop6 ∨
    opcode = opNop7 ∨ opcode = opNop8 ∨ opcode = opNop9 ∨ opcode = opNop10 then .upgradableNop
  else if opcode = opIf ∨ opcode = opNotIf then .ifOrNotIf
  else if opcode = opElse then .elseBranch
  else if opcode = opEndIf then .endIf
  else if opcode = opVerify then .verify
  else if opcode = Opcode.opReturn then .opReturn
  else if opcode = opToAltStack then .toAltStack
  else if opcode = opFromAltStack then .fromAltStack
  else if opcode = op2Drop then .twoDrop
  else if opcode = op2Dup then .twoDup
  else if opcode = op3Dup then .threeDup
  else if opcode = op2Over then .twoOver
  else if opcode = op2Rot then .twoRot
  else if opcode = op2Swap then .twoSwap
  else if opcode = opIfDup then .ifDup
  else if opcode = opDepth then .depth
  else if opcode = opDrop then .drop
  else if opcode = opDup then .dup
  else if opcode = opNip then .nip
  else if opcode = opOver then .overOp
  else if opcode = opPick ∨ opcode = opRoll then .pickOrRoll
  else if opcode = opRot then .rot
  else if opcode = opSwap then .swap
  else if opcode = opTuck then .tuck
  else if opcode = opSize then .size
  else if opcode = opAnd ∨ opcode = opOr ∨ opcode = opXor then .bitwise
  else if opcode = opEqual ∨ opcode = opEqualVerify then .equal
  else if opcode = op1Add ∨ opcode = op1Sub ∨ opcode = opNegate ∨ opcode = opAbs ∨
    opcode = opNot ∨ opcode = op0NotEqual then .unary
  else if opcode = opAdd ∨ opcode = opSub ∨ opcode = opDiv ∨ opcode = opMod ∨
    opcode = opBoolAnd ∨ opcode = opBoolOr ∨ opcode = opNumEqual ∨ opcode = opNumEqualVerify ∨
    opcode = opNumNotEqual ∨ opcode = opLessThan ∨ opcode = opGreaterThan ∨
    opcode = opLessThanOrEqual ∨ opcode = opGreaterThanOrEqual ∨ opcode = opMin ∨
    opcode = opMax then .binary
  else if opcode = opWithin then .within
  else if opcode = opRipemd160 ∨ opcode = opSha1 ∨ opcode = opSha256 ∨ opcode = opHash160 ∨
    opcode = opHash256 then .hash
  else if opcode = opCodeSeparator then .codeSeparator
  else if opcode = opCheckSig ∨ opcode = opCheckSigVerify then .checkSig
  else if opcode = opCheckMultiSig ∨ opcode = opCheckMultiSigVerify then .checkMultiSig
  else if opcode = opCat then .cat
  else if opcode = opSplit then .split
  else if opcode = opBin2Num then .bin2num
  else if opcode = opNum2Bin then .num2bin
  else .default

/-- The code of a case. -/
def exec (fExec : Bool) (opcode : Opcode) : Case → Prog Unit
  | .pushNumber => pushNumber opcode
  | .nop => pure ()
  | .checkLockTimeVerify => checkLockTimeVerify checker flags
  | .checkSequenceVerify => checkSequenceVerify checker flags
  | .upgradableNop => notEnabled flags
  | .ifOrNotIf => ifOrNotIf opcode fExec
  | .elseBranch => elseBranch
  | .endIf => endIf
  | .verify => verify
  | .opReturn => throw (.error .opReturn)
  | .toAltStack => toAltStack
  | .fromAltStack => fromAltStack
  | .twoDrop => twoDrop
  | .twoDup => twoDup
  | .threeDup => threeDup
  | .twoOver => twoOver
  | .twoRot => twoRot
  | .twoSwap => twoSwap
  | .ifDup => ifDup
  | .depth => depth
  | .drop => drop
  | .dup => dup
  | .nip => nip
  | .overOp => overOp
  | .pickOrRoll => pickOrRoll flags opcode
  | .rot => rot
  | .swap => swap
  | .tuck => tuck
  | .size => size
  | .bitwise => bitwise opcode
  | .equal => equal opcode
  | .unary => unary flags opcode
  | .binary => binary flags opcode
  | .within => within flags
  | .hash => hash crypto opcode
  | .codeSeparator => codeSeparator
  | .checkSig => checkSigOp crypto checker flags opcode
  | .checkMultiSig => checkMultiSig crypto checker flags opcode
  | .cat => cat
  | .split => split flags
  | .bin2num => bin2num
  | .num2bin => num2bin flags
  | .default => throw (.error .badOpcode)

/-- `opcode > OP_16 && ++nOpCount > MAX_OPS_PER_SCRIPT`. -/
def countOp (opcode : Opcode) : Prog Unit :=
  doIf (opcode > op16) do
    modify fun m => { m with nOpCount := m.nOpCount + 1 }
    failIf ((← get).nOpCount > 201) .opCount

/-- The opcodes that are disabled. -/
def IsDisabled (opcode : Opcode) : Prop :=
  opcode = opInvert ∨ opcode = op2Mul ∨ opcode = op2Div ∨ opcode = opMul ∨
    opcode = opLShift ∨ opcode = opRShift

instance : DecidablePred IsDisabled := fun _ => inferInstanceAs (Decidable (_ ∨ _))

/-- The push of an operand. -/
def pushOperand (opcode : Opcode) (vchPushValue : Bytes) : Prog Unit := do
  failIf (flags.has verifyMinimalData ∧ ¬ checkMinimalPush vchPushValue opcode) .minimalData
  pushBack vchPushValue

/-- What an instruction does once it is read. -/
def execInstruction (fExec : Bool) (opcode : Opcode) (vchPushValue : Bytes) : Prog Unit :=
  if fExec ∧ opcode ≤ opPushData4 then pushOperand flags opcode vchPushValue
  else if fExec ∨ (opIf ≤ opcode ∧ opcode ≤ opEndIf) then
    exec crypto checker flags fExec opcode (caseOf opcode)
  else pure ()

/-- The size limit at the end of a round. -/
def limitStackSize : Prog Unit := do
  let m ← get
  failIf (m.stack.length + m.altstack.length > 1000) .stackSize

/-- A round of the loop of `EvalScript`, once the instruction is read. -/
def stepWith (fExec : Bool) (opcode : Opcode) (vchPushValue : Bytes) : Prog Unit := do
  failIf (vchPushValue.length > maxScriptElementSize) .pushSize
  countOp opcode
  failIf (IsDisabled opcode) .disabledOpcode
  execInstruction crypto checker flags fExec opcode vchPushValue
  limitStackSize

/-- `!count(vfExec.begin(), vfExec.end(), false)`. -/
def Machine.fExec (m : Machine) : Bool := !m.vfExec.contains false

/-- A round of the loop of `EvalScript`. -/
def step : Prog Unit := do
  let m ← get
  match CScript.getOp m.pc with
  | none => throw (.error .badOpcode)
  | some (opcode, vchPushValue, pc) => do
    modify fun m => { m with pc := pc }
    stepWith crypto checker flags m.fExec opcode vchPushValue

/-- The loop of `EvalScript`. -/
def evalLoop : ℕ → Prog Unit
  | 0 => do
    haltIf ((← get).pc ≠ []) .endless
  | fuel + 1 => do
    let m ← get
    if m.pc = [] then pure () else do
      step crypto checker flags
      evalLoop fuel

/-- `catch (...)`. -/
def catchAll (x : Prog Unit) : Prog Unit := fun m =>
  match x m with
  | .ok _ m => .ok () m
  | .error h m => .error (if h.IsThrown then .error .unknownError else h) m

/-- The variables at the start of `EvalScript`. -/
def start (script : CScript) (m : Machine) : Machine :=
  { m with altstack := [], vfExec := [], pc := script, pbegincodehash := script, nOpCount := 0 }

/-- `EvalScript`. -/
def evalScript (script : CScript) : Prog Unit := do
  modify (start script)
  failIf (script.length > 10000) .scriptSize
  catchAll (evalLoop crypto checker flags script.length)
  let m ← get
  failIf (m.vfExec ≠ []) .unbalancedConditional

/-- The stack ends with an element that counts as true. -/
def requireTrue : Prog Unit := do
  let m ← get
  failIf (m.stack = []) .evalFalse
  failIf (¬ castToBool (m.stack.headD [])) .evalFalse

/-- The part of `VerifyScript` for a script hash, which starts from `stackCopy`. -/
def verifyScriptHash (scriptSig : CScript) (stackCopy : List Bytes) : Prog Unit := do
  failIf (¬ CScript.isPushOnly scriptSig) .sigPushOnly
  modify fun m => { m with stack := stackCopy }
  haltIf (stackCopy = []) (.assertion "!stack.empty()")
  popstack
  evalScript crypto checker flags (stackCopy.headD [])
  requireTrue

/-- The part of `VerifyScript` for `SCRIPT_VERIFY_CLEANSTACK`. -/
def requireCleanStack : Prog Unit := do
  haltIf (¬ flags.has verifyP2SH) (.assertion "(flags & SCRIPT_VERIFY_P2SH) != 0")
  let m ← get
  failIf (m.stack.length ≠ 1) .cleanStack

/-- `VerifyScript` with the flags that it works with. -/
def verifyWith (scriptSig scriptPubKey : CScript) : Prog Unit := do
  failIf (flags.has verifySigPushOnly ∧ ¬ CScript.isPushOnly scriptSig) .sigPushOnly
  modify fun m => { m with stack := [] }
  evalScript crypto checker flags scriptSig
  let stackCopy := (← get).stack
  evalScript crypto checker flags scriptPubKey
  requireTrue
  doIf (flags.has verifyP2SH ∧ CScript.isPayToScriptHash scriptPubKey)
    (verifyScriptHash crypto checker flags scriptSig stackCopy)
  doIf (flags.has verifyCleanStack) (requireCleanStack flags)

/-- The flags that `VerifyScript` works with: the fork id comes with strict encoding. -/
def withStrictEnc : Flags :=
  if flags.has enableSigHashForkId then flags ||| verifyStrictEnc else flags

/-- `VerifyScript`. -/
def verifyScript (scriptSig scriptPubKey : CScript) : Prog Unit :=
  verifyWith crypto checker (withStrictEnc flags) scriptSig scriptPubKey

end

end Script
