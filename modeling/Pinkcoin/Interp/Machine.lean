/-
The script machine: `EvalScript` and the functions around it. The machine
has two stacks, the branches it is in, and the script from where it stands;
what it does is logged. An access to a stack beyond its end, which in the
source throws or is undefined, stops the machine with `outOfRange`.
-/
import Pinkcoin.Lib.StateError
import Pinkcoin.Interp.Values

namespace Pinkcoin

open CScript (getOp OP_1 OP_16 OP_PUSHDATA4)
open StateError (rejectIf)

/-! ## Opcodes -/

/-- What `EvalScript` tells apart. `OP_1NEGATE` and `OP_1` to `OP_16` are
numbers, and the opcodes that are switched off or have no case are one each. -/
inductive Opcode
  | number (n : Int)
  | OP_NOP
  | OP_IF | OP_NOTIF | OP_ELSE | OP_ENDIF | OP_VERIFY | OP_RETURN
  | OP_TOALTSTACK | OP_FROMALTSTACK | OP_2DROP | OP_2DUP | OP_3DUP | OP_2OVER | OP_2ROT | OP_2SWAP | OP_IFDUP
  | OP_DEPTH | OP_DROP | OP_DUP | OP_NIP | OP_OVER | OP_PICK | OP_ROLL | OP_ROT | OP_SWAP | OP_TUCK
  | OP_SIZE | OP_EQUAL | OP_EQUALVERIFY
  | OP_1ADD | OP_1SUB | OP_NEGATE | OP_ABS | OP_NOT | OP_0NOTEQUAL
  | OP_ADD | OP_SUB | OP_BOOLAND | OP_BOOLOR | OP_NUMEQUAL | OP_NUMEQUALVERIFY | OP_NUMNOTEQUAL
  | OP_LESSTHAN | OP_GREATERTHAN | OP_LESSTHANOREQUAL | OP_GREATERTHANOREQUAL | OP_MIN | OP_MAX | OP_WITHIN
  | OP_RIPEMD160 | OP_SHA1 | OP_SHA256 | OP_HASH160 | OP_HASH256
  | OP_CODESEPARATOR | OP_CHECKSIG | OP_CHECKSIGVERIFY | OP_CHECKMULTISIG | OP_CHECKMULTISIGVERIFY
  | disabled
  | unknown
  deriving DecidableEq

/-- The bytes of `opcodetype` from `OP_NOP` on. -/
def opcodes : List (Nat × Opcode) := [
  (0x61, .OP_NOP), (0x63, .OP_IF), (0x64, .OP_NOTIF), (0x67, .OP_ELSE), (0x68, .OP_ENDIF), (0x69, .OP_VERIFY),
  (0x6a, .OP_RETURN),
  (0x6b, .OP_TOALTSTACK), (0x6c, .OP_FROMALTSTACK), (0x6d, .OP_2DROP), (0x6e, .OP_2DUP), (0x6f, .OP_3DUP),
  (0x70, .OP_2OVER), (0x71, .OP_2ROT), (0x72, .OP_2SWAP), (0x73, .OP_IFDUP), (0x74, .OP_DEPTH), (0x75, .OP_DROP),
  (0x76, .OP_DUP), (0x77, .OP_NIP), (0x78, .OP_OVER), (0x79, .OP_PICK), (0x7a, .OP_ROLL), (0x7b, .OP_ROT),
  (0x7c, .OP_SWAP), (0x7d, .OP_TUCK),
  -- OP_CAT, OP_SUBSTR, OP_LEFT, OP_RIGHT
  (0x7e, .disabled), (0x7f, .disabled), (0x80, .disabled), (0x81, .disabled), (0x82, .OP_SIZE),
  -- OP_INVERT, OP_AND, OP_OR, OP_XOR
  (0x83, .disabled), (0x84, .disabled), (0x85, .disabled), (0x86, .disabled), (0x87, .OP_EQUAL),
  (0x88, .OP_EQUALVERIFY),
  (0x8b, .OP_1ADD), (0x8c, .OP_1SUB),
  -- OP_2MUL, OP_2DIV
  (0x8d, .disabled), (0x8e, .disabled), (0x8f, .OP_NEGATE), (0x90, .OP_ABS), (0x91, .OP_NOT), (0x92, .OP_0NOTEQUAL),
  (0x93, .OP_ADD), (0x94, .OP_SUB),
  -- OP_MUL, OP_DIV, OP_MOD, OP_LSHIFT, OP_RSHIFT
  (0x95, .disabled), (0x96, .disabled), (0x97, .disabled), (0x98, .disabled), (0x99, .disabled),
  (0x9a, .OP_BOOLAND), (0x9b, .OP_BOOLOR), (0x9c, .OP_NUMEQUAL), (0x9d, .OP_NUMEQUALVERIFY), (0x9e, .OP_NUMNOTEQUAL),
  (0x9f, .OP_LESSTHAN), (0xa0, .OP_GREATERTHAN), (0xa1, .OP_LESSTHANOREQUAL), (0xa2, .OP_GREATERTHANOREQUAL),
  (0xa3, .OP_MIN), (0xa4, .OP_MAX), (0xa5, .OP_WITHIN),
  (0xa6, .OP_RIPEMD160), (0xa7, .OP_SHA1), (0xa8, .OP_SHA256), (0xa9, .OP_HASH160), (0xaa, .OP_HASH256),
  (0xab, .OP_CODESEPARATOR), (0xac, .OP_CHECKSIG), (0xad, .OP_CHECKSIGVERIFY), (0xae, .OP_CHECKMULTISIG),
  (0xaf, .OP_CHECKMULTISIGVERIFY),
  -- OP_NOP1 to OP_NOP10
  (0xb0, .OP_NOP), (0xb1, .OP_NOP), (0xb2, .OP_NOP), (0xb3, .OP_NOP), (0xb4, .OP_NOP), (0xb5, .OP_NOP),
  (0xb6, .OP_NOP), (0xb7, .OP_NOP), (0xb8, .OP_NOP), (0xb9, .OP_NOP)]

def OP_1NEGATE : Nat := 0x4f
def OP_RESERVED : Nat := 0x50
def OP_IF : Nat := 0x63
def OP_ENDIF : Nat := 0x68

/-- The opcode of a byte above `OP_PUSHDATA4`. -/
def Opcode.ofNat (opcode : Nat) : Opcode :=
  if OP_1NEGATE ≤ opcode ∧ opcode ≤ OP_16 ∧ opcode ≠ OP_RESERVED then .number ((opcode : Int) - ((OP_1 : Int) - 1))
  else (opcodes.lookup opcode).getD .unknown

/-! ## The machine -/

/-- What the machine did: an opcode that was executed, a constant that was
pushed, a result that was pushed, a call of `CheckSig`. -/
inductive Event
  | executed (opcode : Nat)
  | constant (vch : Valtype)
  | result (vch : Valtype)
  | checkSig (vchSig vchPubKey : Valtype) (scriptCode : CScript)
  deriving DecidableEq

/-- How the machine stops before the end: `return false`, an exception from
`CastToBigNum`, or an access beyond the end of a stack. -/
inductive EvalStop
  | refused
  | overflow
  | outOfRange
  deriving DecidableEq

/-- The local variables of `EvalScript`. The stacks have their top first, and
`vfExec` the innermost branch; `pc` and `pbegincodehash` are the script from
there on. -/
structure Machine where
  pc : CScript
  pbegincodehash : CScript
  stack : List Valtype
  altstack : List Valtype
  vfExec : List Bool
  nOpCount : Nat
  log : List Event
  deriving DecidableEq

abbrev EvalM := EStateM EvalStop Machine

def MAX_SCRIPT_ELEMENT_SIZE : Nat := 520

namespace Machine

/-! ## The stacks -/

/-- `if (stack.size() < n) return false`. -/
def needs (n : Nat) : EvalM Unit := do
  let s ← get
  rejectIf (s.stack.length < n) EvalStop.refused

/-- `stacktop(-i)`. -/
def stacktop (i : Nat) : EvalM Valtype := do
  let s ← get
  match s.stack[i - 1]? with
  | some vch => if i = 0 then throw .outOfRange else pure vch
  | none => throw .outOfRange

/-- `popstack(stack)`. -/
def popstack : EvalM Unit := do
  let s ← get
  match s.stack with
  | _ :: stack => set { s with stack := stack }
  | [] => throw .outOfRange

/-- `altstacktop(-1)`. -/
def altstacktop : EvalM Valtype := do
  let s ← get
  match s.altstack with
  | vch :: _ => pure vch
  | [] => throw .outOfRange

/-- `popstack(altstack)`. -/
def popAltStack : EvalM Unit := do
  let s ← get
  match s.altstack with
  | _ :: altstack => set { s with altstack := altstack }
  | [] => throw .outOfRange

/-- `stack.push_back(vch)`. -/
def push (vch : Valtype) : EvalM Unit := modify fun s => { s with stack := vch :: s.stack }

/-- `stacktop(-i) = vch`. -/
def assign (i : Nat) (vch : Valtype) : EvalM Unit := do
  let s ← get
  if i = 0 ∨ s.stack.length < i then throw .outOfRange else set { s with stack := s.stack.set (i - 1) vch }

/-- `swap(stacktop(-i), stacktop(-j))`. -/
def swap (i j : Nat) : EvalM Unit := do
  let vch1 ← stacktop i
  let vch2 ← stacktop j
  assign i vch2
  assign j vch1

/-- `stack.erase(stack.end()-i)`. -/
def erase (i : Nat) : EvalM Unit := do
  let s ← get
  if i = 0 ∨ s.stack.length < i then throw .outOfRange else set { s with stack := s.stack.eraseIdx (i - 1) }

/-- `stack.insert(stack.end()-i, vch)`. -/
def insert (i : Nat) (vch : Valtype) : EvalM Unit := do
  let s ← get
  if s.stack.length < i then throw .outOfRange else set { s with stack := s.stack.insertIdx i vch }

def note (event : Event) : EvalM Unit := modify fun s => { s with log := s.log ++ [event] }

/-- Push a constant of the script. -/
def pushConstant (vch : Valtype) : EvalM Unit := do
  note (.constant vch)
  push vch

/-- Push what was computed. -/
def pushResult (vch : Valtype) : EvalM Unit := do
  note (.result vch)
  push vch

/-- `CastToBigNum`. -/
def castToBigNum (vch : Valtype) : EvalM Int := do
  rejectIf (nMaxNumSize < vch.length) EvalStop.overflow
  pure (setvch vch)

/-- `nOpCount += n; if (nOpCount > 201) return false`. -/
def count (n : Nat) : EvalM Unit := do
  modify fun s => { s with nOpCount := s.nOpCount + n }
  let s ← get
  rejectIf (201 < s.nOpCount) EvalStop.refused

/-- Drop a true top, or refuse. -/
def verifyTop (fValue : Bool) : EvalM Unit := if fValue then popstack else throw .refused

/-! ## Control -/

/-- `OP_IF` and `OP_NOTIF`. -/
def opIf (fExec fNot : Bool) : EvalM Unit := do
  if fExec then
    needs 1
    let vch ← stacktop 1
    popstack
    modify fun s => { s with vfExec := (castToBool vch != fNot) :: s.vfExec }
  else modify fun s => { s with vfExec := false :: s.vfExec }

def opElse : EvalM Unit := do
  let s ← get
  match s.vfExec with
  | [] => throw .refused
  | f :: vfExec => set { s with vfExec := (!f) :: vfExec }

def opEndIf : EvalM Unit := do
  let s ← get
  match s.vfExec with
  | [] => throw .refused
  | _ :: vfExec => set { s with vfExec := vfExec }

def opVerify : EvalM Unit := do
  needs 1
  let vch ← stacktop 1
  verifyTop (castToBool vch)

/-! ## Stack operations -/

def opToAltStack : EvalM Unit := do
  needs 1
  let vch ← stacktop 1
  modify fun s => { s with altstack := vch :: s.altstack }
  popstack

def opFromAltStack : EvalM Unit := do
  let s ← get
  rejectIf (s.altstack.length < 1) EvalStop.refused
  let vch ← altstacktop
  push vch
  popAltStack

def op2Drop : EvalM Unit := do
  needs 2
  popstack
  popstack

def op2Dup : EvalM Unit := do
  needs 2
  let vch1 ← stacktop 2
  let vch2 ← stacktop 1
  push vch1
  push vch2

def op3Dup : EvalM Unit := do
  needs 3
  let vch1 ← stacktop 3
  let vch2 ← stacktop 2
  let vch3 ← stacktop 1
  push vch1
  push vch2
  push vch3

def op2Over : EvalM Unit := do
  needs 4
  let vch1 ← stacktop 4
  let vch2 ← stacktop 3
  push vch1
  push vch2

/-- The two elements are erased one after the other. -/
def op2Rot : EvalM Unit := do
  needs 6
  let vch1 ← stacktop 6
  let vch2 ← stacktop 5
  erase 6
  erase 5
  push vch1
  push vch2

def op2Swap : EvalM Unit := do
  needs 4
  swap 4 2
  swap 3 1

def opIfDup : EvalM Unit := do
  needs 1
  let vch ← stacktop 1
  if castToBool vch then push vch

def opDepth : EvalM Unit := do
  let s ← get
  pushResult (getvch (sizeT s.stack))

def opDrop : EvalM Unit := do
  needs 1
  popstack

def opDup : EvalM Unit := do
  needs 1
  let vch ← stacktop 1
  push vch

def opNip : EvalM Unit := do
  needs 2
  erase 2

def opOver : EvalM Unit := do
  needs 2
  let vch ← stacktop 2
  push vch

/-- `OP_PICK` and `OP_ROLL`. -/
def opPick (fRoll : Bool) : EvalM Unit := do
  needs 2
  let vch ← stacktop 1
  let bn ← castToBigNum vch
  let n := getint bn
  popstack
  let s ← get
  rejectIf (n < 0 ∨ s.stack.length ≤ n) EvalStop.refused
  let vch ← stacktop (n.toNat + 1)
  if fRoll then erase (n.toNat + 1)
  push vch

def opRot : EvalM Unit := do
  needs 3
  swap 3 2
  swap 2 1

def opSwap : EvalM Unit := do
  needs 2
  swap 2 1

def opTuck : EvalM Unit := do
  needs 2
  let vch ← stacktop 1
  insert 2 vch

/-! ## Sizes, comparisons, numbers -/

def opSize : EvalM Unit := do
  needs 1
  let vch ← stacktop 1
  pushResult (getvch (sizeT vch))

/-- `OP_EQUAL` and `OP_EQUALVERIFY`. -/
def opEqual (fVerify : Bool) : EvalM Unit := do
  needs 2
  let vch1 ← stacktop 2
  let vch2 ← stacktop 1
  let fEqual : Bool := vch1 = vch2
  popstack
  popstack
  pushResult (if fEqual then vchTrue else vchFalse)
  if fVerify then verifyTop fEqual

def ofBool (b : Bool) : Int := if b then 1 else 0

/-- The opcodes with one number. -/
def opUnary (f : Int → Int) : EvalM Unit := do
  needs 1
  let vch ← stacktop 1
  let bn ← castToBigNum vch
  popstack
  pushResult (getvch (f bn))

/-- The opcodes with two numbers. -/
def opBinary (f : Int → Int → Int) : EvalM Unit := do
  needs 2
  let vch1 ← stacktop 2
  let bn1 ← castToBigNum vch1
  let vch2 ← stacktop 1
  let bn2 ← castToBigNum vch2
  popstack
  popstack
  pushResult (getvch (f bn1 bn2))

def opNumEqualVerify : EvalM Unit := do
  opBinary fun bn1 bn2 => ofBool (bn1 = bn2)
  let vch ← stacktop 1
  verifyTop (castToBool vch)

def opWithin : EvalM Unit := do
  needs 3
  let vch1 ← stacktop 3
  let bn1 ← castToBigNum vch1
  let vch2 ← stacktop 2
  let bn2 ← castToBigNum vch2
  let vch3 ← stacktop 1
  let bn3 ← castToBigNum vch3
  popstack
  popstack
  popstack
  pushResult (if bn2 ≤ bn1 ∧ bn1 < bn3 then vchTrue else vchFalse)

/-! ## Hashes and signatures -/

/-- The opcodes that hash. -/
def opHash {n : Nat} (hash : List UInt8 → List.Vector UInt8 n) : EvalM Unit := do
  needs 1
  let vch ← stacktop 1
  popstack
  pushResult (hash vch).toList

section

variable (P : ScriptParams) (ctx : SigContext)

/-- `IsCanonicalSignature(vchSig) && IsCanonicalPubKey(vchPubKey) && CheckSig(…)`. -/
def checkOne (vchSig vchPubKey : Valtype) (scriptCode : CScript) : EvalM Bool := do
  if isCanonicalSignature vchSig && isCanonicalPubKey vchPubKey then
    note (.checkSig vchSig vchPubKey scriptCode)
    pure (checkSig P ctx vchSig vchPubKey scriptCode)
  else pure false

/-- `OP_CHECKSIG` and `OP_CHECKSIGVERIFY`. -/
def opCheckSig (fVerify : Bool) : EvalM Unit := do
  needs 2
  let vchSig ← stacktop 2
  let vchPubKey ← stacktop 1
  let s ← get
  -- there is no way for a signature to sign itself
  let scriptCode := CScript.findAndDelete s.pbegincodehash (CScript.push vchSig)
  let fSuccess ← checkOne P ctx vchSig vchPubKey scriptCode
  popstack
  popstack
  pushResult (if fSuccess then vchTrue else vchFalse)
  if fVerify then verifyTop fSuccess

/-- The loop that drops the signatures from the script, `n` of them from `isig` on. -/
def dropSignatures : Nat → Nat → CScript → EvalM CScript
  | 0, _, scriptCode => pure scriptCode
  | n + 1, isig, scriptCode => do
    let vchSig ← stacktop isig
    dropSignatures n (isig + 1) (CScript.findAndDelete scriptCode (CScript.push vchSig))

/-- The loop over the keys. It ends when no signature is left, or more than
there are keys. -/
def checkMultiSigLoop (scriptCode : CScript) : Nat → Nat → Nat → Nat → EvalM Bool
  | _, 0, _, _ => pure true
  | 0, _ + 1, _, _ => pure false
  | nKeysCount + 1, nSigsCount + 1, isig, ikey => do
    let vchSig ← stacktop isig
    let vchPubKey ← stacktop ikey
    let fOk ← checkOne P ctx vchSig vchPubKey scriptCode
    let left := if fOk then nSigsCount else nSigsCount + 1
    if nKeysCount < left then pure false
    else checkMultiSigLoop scriptCode nKeysCount left (if fOk then isig + 1 else isig) (ikey + 1)

/-- `while (i-- > 0) popstack(stack)`. -/
def popMany : Nat → EvalM Unit
  | 0 => pure ()
  | i + 1 => do
    popstack
    popMany i

/-- A count that is at most `nMax`. -/
def readCount (i : Nat) (nMax : Int) : EvalM Nat := do
  needs i
  let vch ← stacktop i
  let bn ← castToBigNum vch
  rejectIf (getint bn < 0 ∨ nMax < getint bn) EvalStop.refused
  pure (getint bn).toNat

/-- `OP_CHECKMULTISIG` and `OP_CHECKMULTISIGVERIFY`. -/
def opCheckMultiSig (fVerify : Bool) : EvalM Unit := do
  let nKeysCount ← readCount 1 20
  count nKeysCount
  let nSigsCount ← readCount (2 + nKeysCount) nKeysCount
  let i := 3 + nKeysCount + nSigsCount
  needs i
  let s ← get
  let scriptCode ← dropSignatures nSigsCount (3 + nKeysCount) s.pbegincodehash
  let fSuccess ← checkMultiSigLoop P ctx scriptCode nKeysCount nSigsCount (3 + nKeysCount) 2
  popMany i
  pushResult (if fSuccess then vchTrue else vchFalse)
  if fVerify then verifyTop fSuccess

/-! ## Instructions -/

/-- The `switch`. The cases of the opcodes that are disabled are left out;
to come to one counts as a fault. -/
def execOp (fExec : Bool) : Opcode → EvalM Unit
  | .number n => pushConstant (getvch n)
  | .OP_NOP => pure ()
  | .OP_IF => opIf fExec false
  | .OP_NOTIF => opIf fExec true
  | .OP_ELSE => opElse
  | .OP_ENDIF => opEndIf
  | .OP_VERIFY => opVerify
  | .OP_RETURN => throw .refused
  | .OP_TOALTSTACK => opToAltStack
  | .OP_FROMALTSTACK => opFromAltStack
  | .OP_2DROP => op2Drop
  | .OP_2DUP => op2Dup
  | .OP_3DUP => op3Dup
  | .OP_2OVER => op2Over
  | .OP_2ROT => op2Rot
  | .OP_2SWAP => op2Swap
  | .OP_IFDUP => opIfDup
  | .OP_DEPTH => opDepth
  | .OP_DROP => opDrop
  | .OP_DUP => opDup
  | .OP_NIP => opNip
  | .OP_OVER => opOver
  | .OP_PICK => opPick false
  | .OP_ROLL => opPick true
  | .OP_ROT => opRot
  | .OP_SWAP => opSwap
  | .OP_TUCK => opTuck
  | .OP_SIZE => opSize
  | .OP_EQUAL => opEqual false
  | .OP_EQUALVERIFY => opEqual true
  | .OP_1ADD => opUnary fun bn => bn + 1
  | .OP_1SUB => opUnary fun bn => bn - 1
  | .OP_NEGATE => opUnary fun bn => -bn
  | .OP_ABS => opUnary fun bn => if bn < 0 then -bn else bn
  | .OP_NOT => opUnary fun bn => ofBool (bn = 0)
  | .OP_0NOTEQUAL => opUnary fun bn => ofBool (bn ≠ 0)
  | .OP_ADD => opBinary fun bn1 bn2 => bn1 + bn2
  | .OP_SUB => opBinary fun bn1 bn2 => bn1 - bn2
  | .OP_BOOLAND => opBinary fun bn1 bn2 => ofBool (bn1 ≠ 0 ∧ bn2 ≠ 0)
  | .OP_BOOLOR => opBinary fun bn1 bn2 => ofBool (bn1 ≠ 0 ∨ bn2 ≠ 0)
  | .OP_NUMEQUAL => opBinary fun bn1 bn2 => ofBool (bn1 = bn2)
  | .OP_NUMEQUALVERIFY => opNumEqualVerify
  | .OP_NUMNOTEQUAL => opBinary fun bn1 bn2 => ofBool (bn1 ≠ bn2)
  | .OP_LESSTHAN => opBinary fun bn1 bn2 => ofBool (bn1 < bn2)
  | .OP_GREATERTHAN => opBinary fun bn1 bn2 => ofBool (bn1 > bn2)
  | .OP_LESSTHANOREQUAL => opBinary fun bn1 bn2 => ofBool (bn1 ≤ bn2)
  | .OP_GREATERTHANOREQUAL => opBinary fun bn1 bn2 => ofBool (bn1 ≥ bn2)
  | .OP_MIN => opBinary fun bn1 bn2 => if bn1 < bn2 then bn1 else bn2
  | .OP_MAX => opBinary fun bn1 bn2 => if bn1 > bn2 then bn1 else bn2
  | .OP_WITHIN => opWithin
  | .OP_RIPEMD160 => opHash P.RIPEMD160
  | .OP_SHA1 => opHash P.SHA1
  | .OP_SHA256 => opHash P.SHA256
  | .OP_HASH160 => opHash P.hash160
  | .OP_HASH256 => opHash P.hash256
  | .OP_CODESEPARATOR => modify fun s => { s with pbegincodehash := s.pc }
  | .OP_CHECKSIG => opCheckSig P ctx false
  | .OP_CHECKSIGVERIFY => opCheckSig P ctx true
  | .OP_CHECKMULTISIG => opCheckMultiSig P ctx false
  | .OP_CHECKMULTISIGVERIFY => opCheckMultiSig P ctx true
  | .disabled => throw .outOfRange
  | .unknown => throw .refused

/-- `fExec`: no branch around is switched off. -/
def fExec (s : Machine) : Bool := s.vfExec.all id

/-- A constant is pushed, and an opcode executed, unless a branch around is
switched off. -/
def dispatch (fExec : Bool) (opcode : Nat) (vchPushValue : Valtype) : EvalM Unit :=
  if fExec ∧ opcode ≤ OP_PUSHDATA4 then pushConstant vchPushValue
  else if fExec ∨ (OP_IF ≤ opcode ∧ opcode ≤ OP_ENDIF) then do
    note (.executed opcode)
    execOp P ctx fExec (.ofNat opcode)
  else pure ()

/-- One turn of the loop: an instruction is read, counted and executed. -/
def evalStep : EvalM Unit := do
  let s ← get
  match getOp s.pc with
  | none => throw .refused
  | some (opcode, vchPushValue, pc) =>
    set { s with pc := pc }
    rejectIf (MAX_SCRIPT_ELEMENT_SIZE < vchPushValue.length) EvalStop.refused
    if OP_16 < opcode then count 1
    rejectIf (Opcode.ofNat opcode = .disabled) EvalStop.refused
    dispatch P ctx s.fExec opcode vchPushValue
    let s ← get
    rejectIf (1000 < s.stack.length + s.altstack.length) EvalStop.refused

/-- The loop. Every instruction takes a byte, so that as many turns as there
are bytes come to the end. -/
def evalLoop : Nat → EvalM Unit
  | 0 => pure ()
  | fuel + 1 => do
    let s ← get
    if s.pc = [] then pure ()
    else
      evalStep P ctx
      evalLoop fuel

/-- The machine at the start. -/
def start (script : CScript) (stack : List Valtype) : Machine := ⟨script, script, stack, [], [], 0, []⟩

end

end Machine

/-! ## EvalScript and VerifyScript -/

section

variable (P : ScriptParams) (ctx : SigContext)

/-- `EvalScript`: its verdict and the machine at the end. Every exception is
caught. -/
def evalScript (stack : List Valtype) (script : CScript) : Bool × Machine :=
  if 10000 < script.length then (false, Machine.start script stack)
  else
    match Machine.evalLoop P ctx script.length (Machine.start script stack) with
    | .ok _ s => (s.vfExec.isEmpty, s)
    | .error _ s => (false, s)

/-- `IsPushOnly`. -/
def isPushOnly (script : CScript) : Bool := (CScript.lastPush script.length script []).isSome

/-- The end of `VerifyScript`: the redeem script is run on the stack below it. -/
def evalRedeem (stackCopy : List Valtype) : Bool × Machine :=
  match stackCopy with
  | [] => (false, Machine.start [] [])
  | pubKeySerialized :: stackCopy =>
    let r := evalScript P ctx stackCopy pubKeySerialized
    (r.1 && (r.2.stack.head?.map castToBool).getD false, r.2)

/-- `VerifyScript`: its verdict, and the machines that were run. -/
def verifyScript (scriptSig scriptPubKey : CScript) : Bool × List Machine :=
  let r1 := evalScript P ctx [] scriptSig
  if r1.1 = false then (false, [r1.2])
  else
    let r2 := evalScript P ctx r1.2.stack scriptPubKey
    if r2.1 = false ∨ (r2.2.stack.head?.map castToBool).getD false = false then (false, [r1.2, r2.2])
    else if CScript.isPayToScriptHash scriptPubKey then
      if isPushOnly scriptSig = false then (false, [r1.2, r2.2])
      else
        let r3 := evalRedeem P ctx r1.2.stack
        (r3.1, [r1.2, r2.2, r3.2])
    else (true, [r1.2, r2.2])

end

end Pinkcoin
