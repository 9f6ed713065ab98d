import Sidechain.Library.Guarded
import Sidechain.Script.Verify

/-! `EvalScript` and `VerifyScript` with every access to a stack, every int64 operation and every
assertion as the source writes it, so that a missing check would show up as a fault. -/
namespace Sidechain
open Guarded

abbrev Checked (α : Type) := Except (Stop ScriptError) α

namespace CScriptNum

def int64Min : ℤ := -2^63
def int64Max : ℤ := 2^63 - 1

/-- The shifts of `set_vch` stay below the sign bit if the bytes together do. -/
def ofVchAt (fRequireMinimal : Bool) (nMaxNumSize : ℕ) (vch : valtype) : Checked CScriptNum := do
  let bn ← lift (CScriptNum.ofVch fRequireMinimal nMaxNumSize vch)
  ensure (ofLeBytes vch < 2^63) "static_cast<int64_t>(vch[i]) << 8*i"
  .ok bn

def ofInt64 (n : ℤ) (what : String) : Checked CScriptNum := do
  ensure (int64Min ≤ n ∧ n ≤ int64Max) what
  .ok n

def add (bn rhs : CScriptNum) : Checked CScriptNum := ofInt64 (bn + rhs) "m_value + rhs"
def sub (bn rhs : CScriptNum) : Checked CScriptNum := ofInt64 (bn - rhs) "m_value - rhs"

def addAssign (bn rhs : CScriptNum) : Checked CScriptNum := do
  ensure (rhs = 0 ∨ rhs > 0 ∧ bn ≤ int64Max - rhs ∨ rhs < 0 ∧ bn ≥ int64Min - rhs)
    "assert in operator+="
  ofInt64 (bn + rhs) "m_value += rhs"

def subAssign (bn rhs : CScriptNum) : Checked CScriptNum := do
  ensure (rhs = 0 ∨ rhs > 0 ∧ bn ≥ int64Min + rhs ∨ rhs < 0 ∧ bn ≤ int64Max + rhs)
    "assert in operator-="
  ofInt64 (bn - rhs) "m_value -= rhs"

def negAt (bn : CScriptNum) : Checked CScriptNum := do
  ensure (bn ≠ int64Min) "m_value != std::numeric_limits<int64_t>::min()"
  ofInt64 (-bn) "-m_value"

def getvch (bn : CScriptNum) : Checked valtype := do
  ensure (bn ≠ int64Min) "-value"
  .ok bn.serialize

end CScriptNum

def stacktop (stack : List valtype) (i : ℕ) : Checked valtype := top stack i
def popstack (stack : List valtype) : Checked (List valtype) := pop stack

/-- `if (stack.size() < n) return set_error(serror, e)` -/
def needSize (stack : List valtype) (n : ℕ) (e : ScriptError := .invalidStackOperation) :
    Checked Unit :=
  if stack.length < n then fail e else .ok ()

def evalStackOpAt (opcode : UInt8) (stack : List valtype) : Checked (List valtype) :=
  if opcode = OP_2DROP then do
    needSize stack 2
    let stack ← popstack stack
    popstack stack
  else if opcode = OP_2DUP then do
    needSize stack 2
    let vch1 ← stacktop stack 2
    let vch2 ← stacktop stack 1
    .ok (vch2::vch1::stack)
  else if opcode = OP_3DUP then do
    needSize stack 3
    let vch1 ← stacktop stack 3
    let vch2 ← stacktop stack 2
    let vch3 ← stacktop stack 1
    .ok (vch3::vch2::vch1::stack)
  else if opcode = OP_2OVER then do
    needSize stack 4
    let vch1 ← stacktop stack 4
    let vch2 ← stacktop stack 3
    .ok (vch2::vch1::stack)
  else if opcode = OP_2ROT then do
    needSize stack 6
    let vch1 ← stacktop stack 6
    let vch2 ← stacktop stack 5
    let stack ← eraseTops stack 6 4
    .ok (vch2::vch1::stack)
  else if opcode = OP_2SWAP then do
    needSize stack 4
    let stack ← swapTops stack 4 2
    swapTops stack 3 1
  else if opcode = OP_IFDUP then do
    needSize stack 1
    let vch ← stacktop stack 1
    .ok (if castToBool vch then vch::stack else stack)
  else if opcode = OP_DEPTH then do
    let vch ← CScriptNum.getvch stack.length
    .ok (vch::stack)
  else if opcode = OP_DROP then do
    needSize stack 1
    popstack stack
  else if opcode = OP_DUP then do
    needSize stack 1
    let vch ← stacktop stack 1
    .ok (vch::stack)
  else if opcode = OP_NIP then do
    needSize stack 2
    eraseTop stack 2
  else if opcode = OP_OVER then do
    needSize stack 2
    let vch ← stacktop stack 2
    .ok (vch::stack)
  else if opcode = OP_ROT then do
    needSize stack 3
    let stack ← swapTops stack 3 2
    swapTops stack 2 1
  else if opcode = OP_SWAP then do
    needSize stack 2
    swapTops stack 2 1
  else if opcode = OP_TUCK then do
    needSize stack 2
    let vch ← stacktop stack 1
    insertTop stack 2 vch
  else if opcode = OP_SIZE then do
    needSize stack 1
    let top ← stacktop stack 1
    let vch ← CScriptNum.getvch top.length
    .ok (vch::stack)
  else fail .badOpcode

def evalPickRollAt (fRequireMinimal roll : Bool) (stack : List valtype) :
    Checked (List valtype) := do
  needSize stack 2
  let top ← stacktop stack 1
  let bn ← CScriptNum.ofVchAt fRequireMinimal nDefaultMaxNumSize top
  let n := bn.getint
  let stack ← popstack stack
  if n < 0 ∨ n ≥ stack.length then fail .invalidStackOperation
  else do
    let vch ← stacktop stack (n.toNat + 1)
    let stack ← if roll then eraseTop stack (n.toNat + 1) else .ok stack
    .ok (vch::stack)

def evalUnaryAt (fRequireMinimal : Bool) (f : CScriptNum → Checked CScriptNum)
    (stack : List valtype) : Checked (List valtype) := do
  needSize stack 1
  let top ← stacktop stack 1
  let bn ← CScriptNum.ofVchAt fRequireMinimal nDefaultMaxNumSize top
  let bn ← f bn
  let stack ← popstack stack
  let vch ← bn.getvch
  .ok (vch::stack)

def evalBinaryAt (fRequireMinimal : Bool) (f : CScriptNum → CScriptNum → Checked CScriptNum)
    (stack : List valtype) : Checked (List valtype) := do
  needSize stack 2
  let top2 ← stacktop stack 2
  let bn1 ← CScriptNum.ofVchAt fRequireMinimal nDefaultMaxNumSize top2
  let top1 ← stacktop stack 1
  let bn2 ← CScriptNum.ofVchAt fRequireMinimal nDefaultMaxNumSize top1
  let bn ← f bn1 bn2
  let stack ← popstack stack
  let stack ← popstack stack
  let vch ← bn.getvch
  .ok (vch::stack)

def evalWithinAt (fRequireMinimal : Bool) (stack : List valtype) : Checked (List valtype) := do
  needSize stack 3
  let top3 ← stacktop stack 3
  let bn1 ← CScriptNum.ofVchAt fRequireMinimal nDefaultMaxNumSize top3
  let top2 ← stacktop stack 2
  let bn2 ← CScriptNum.ofVchAt fRequireMinimal nDefaultMaxNumSize top2
  let top1 ← stacktop stack 1
  let bn3 ← CScriptNum.ofVchAt fRequireMinimal nDefaultMaxNumSize top1
  let fValue := decide (bn2 ≤ bn1 ∧ bn1 < bn3)
  let stack ← popTimes 3 stack
  .ok (vchBool fValue :: stack)

/-- The answer of an operation goes on the stack, and off again in its VERIFY form. -/
def pushAnswer (isVerify fSuccess : Bool) (failure : ScriptError) (stack : List valtype) :
    Checked (List valtype) :=
  let stack := vchBool fSuccess :: stack
  if isVerify then if fSuccess then popstack stack else fail failure
  else .ok stack

/-- Fails on a false top, otherwise pops it. -/
def popTrueAt (failure : ScriptError) (stack : List valtype) : Checked (List valtype) := do
  let top ← stacktop stack 1
  if castToBool top then popstack stack else fail failure

def evalVerifyAt (stack : List valtype) : Checked (List valtype) := do
  needSize stack 1
  popTrueAt .verify stack

def evalEqualAt (isVerify : Bool) (stack : List valtype) : Checked (List valtype) := do
  needSize stack 2
  let vch1 ← stacktop stack 2
  let vch2 ← stacktop stack 1
  let fEqual := vch1 == vch2
  let stack ← popTimes 2 stack
  pushAnswer isVerify fEqual .equalVerify stack

def evalHashAt (hash : valtype → valtype) (stack : List valtype) : Checked (List valtype) := do
  needSize stack 1
  let vch ← stacktop stack 1
  let stack ← popstack stack
  .ok (hash vch :: stack)

def evalNumericOpAt (fRequireMinimal : Bool) (opcode : UInt8) (stack : List valtype) :
    Checked (List valtype) :=
  let unary := fun f => evalUnaryAt fRequireMinimal f stack
  let binary := fun f => evalBinaryAt fRequireMinimal f stack
  if opcode = OP_1ADD then unary fun bn => bn.addAssign 1
  else if opcode = OP_1SUB then unary fun bn => bn.subAssign 1
  else if opcode = OP_NEGATE then unary CScriptNum.negAt
  else if opcode = OP_ABS then unary fun bn => if bn < 0 then bn.negAt else .ok bn
  else if opcode = OP_NOT then unary fun bn => .ok (ofBool (bn == 0))
  else if opcode = OP_0NOTEQUAL then unary fun bn => .ok (ofBool (bn != 0))
  else if opcode = OP_ADD then binary CScriptNum.add
  else if opcode = OP_SUB then binary CScriptNum.sub
  else if opcode = OP_BOOLAND then binary fun bn1 bn2 => .ok (ofBool (bn1 != 0 && bn2 != 0))
  else if opcode = OP_BOOLOR then binary fun bn1 bn2 => .ok (ofBool (bn1 != 0 || bn2 != 0))
  else if opcode = OP_NUMEQUAL then binary fun bn1 bn2 => .ok (ofBool (bn1 == bn2))
  else if opcode = OP_NUMEQUALVERIFY then do
    let stack ← binary fun bn1 bn2 => .ok (ofBool (bn1 == bn2))
    popTrueAt .numEqualVerify stack
  else if opcode = OP_NUMNOTEQUAL then binary fun bn1 bn2 => .ok (ofBool (bn1 != bn2))
  else if opcode = OP_LESSTHAN then binary fun bn1 bn2 => .ok (ofBool (decide (bn1 < bn2)))
  else if opcode = OP_GREATERTHAN then binary fun bn1 bn2 => .ok (ofBool (decide (bn1 > bn2)))
  else if opcode = OP_LESSTHANOREQUAL then
    binary fun bn1 bn2 => .ok (ofBool (decide (bn1 ≤ bn2)))
  else if opcode = OP_GREATERTHANOREQUAL then
    binary fun bn1 bn2 => .ok (ofBool (decide (bn1 ≥ bn2)))
  else if opcode = OP_MIN then binary fun bn1 bn2 => .ok (if bn1 < bn2 then bn1 else bn2)
  else if opcode = OP_MAX then binary fun bn1 bn2 => .ok (if bn1 > bn2 then bn1 else bn2)
  else if opcode = OP_WITHIN then evalWithinAt fRequireMinimal stack
  else fail .badOpcode

def readLockTimeAt (fRequireMinimal : Bool) (stack : List valtype) : Checked CScriptNum := do
  needSize stack 1
  let top ← stacktop stack 1
  let n ← CScriptNum.ofVchAt fRequireMinimal 5 top
  if n < 0 then fail .negativeLocktime else .ok n

def evalCheckLockTimeVerifyAt (flags : ScriptFlags) (checker : BaseSignatureChecker)
    (m : Machine) : Checked Machine :=
  if !hasFlag flags SCRIPT_VERIFY_CHECKLOCKTIMEVERIFY then lift (discourage flags m)
  else do
    let nLockTime ← readLockTimeAt (hasFlag flags SCRIPT_VERIFY_MINIMALDATA) m.stack
    if !checker.checkLockTime nLockTime then fail .unsatisfiedLocktime else .ok m

def evalCheckSequenceVerifyAt (flags : ScriptFlags) (checker : BaseSignatureChecker)
    (m : Machine) : Checked Machine :=
  if !hasFlag flags SCRIPT_VERIFY_CHECKSEQUENCEVERIFY then lift (discourage flags m)
  else do
    let nSequence ← readLockTimeAt (hasFlag flags SCRIPT_VERIFY_MINIMALDATA) m.stack
    if nSequence.toNat &&& SEQUENCE_LOCKTIME_DISABLE_FLAG ≠ 0 then .ok m
    else if !checker.checkSequence nSequence then fail .unsatisfiedLocktime
    else .ok m

def evalIfAt (notif : Bool) (m : Machine) : Checked Machine :=
  if m.fExec then do
    needSize m.stack 1 .unbalancedConditional
    let vch ← stacktop m.stack 1
    let stack ← popstack m.stack
    .ok { m with stack, vfExec := (castToBool vch != notif) :: m.vfExec }
  else .ok { m with vfExec := false :: m.vfExec }

def evalElseAt (m : Machine) : Checked Machine :=
  if m.vfExec.isEmpty then fail .unbalancedConditional
  else do
    let back ← top m.vfExec 1
    let vfExec ← setTop m.vfExec 1 (!back)
    .ok { m with vfExec }

def evalEndifAt (m : Machine) : Checked Machine :=
  if m.vfExec.isEmpty then fail .unbalancedConditional
  else do
    let vfExec ← pop m.vfExec
    .ok { m with vfExec }

def evalToAltstackAt (m : Machine) : Checked Machine := do
  needSize m.stack 1
  let vch ← stacktop m.stack 1
  let stack ← popstack m.stack
  .ok { m with stack, altstack := vch::m.altstack }

def evalFromAltstackAt (m : Machine) : Checked Machine := do
  needSize m.altstack 1 .invalidAltstackOperation
  let vch ← stacktop m.altstack 1
  let altstack ← popstack m.altstack
  .ok { m with stack := vch::m.stack, altstack }

/-- Run a handler that only touches the stack. -/
def onStackAt (f : List valtype → Checked (List valtype)) (m : Machine) : Checked Machine := do
  let stack ← f m.stack
  .ok { m with stack }

section
variable [Crypto]

def evalCheckSigAt (isVerify : Bool) (flags : ScriptFlags) (checker : BaseSignatureChecker)
    (m : Machine) : Checked Machine := do
  needSize m.stack 2
  let vchSig ← stacktop m.stack 2
  let vchPubKey ← stacktop m.stack 1
  let scriptCode := m.pbegincodehash.findAndDelete (pushData vchSig)
  lift (checkEncodings flags vchSig vchPubKey)
  let fSuccess := checker.checkSig vchSig vchPubKey scriptCode
  let stack ← popTimes 2 m.stack
  let stack ← pushAnswer isVerify fSuccess .checkSigVerify stack
  .ok { m with stack }

/-- The loop over the signatures; every round uses up a key. -/
def multiSigLoopAt (flags : ScriptFlags) (checker : BaseSignatureChecker) (scriptCode : CScript)
    (stack : List valtype) :
    ℕ → (isig ikey : ℕ) → (nSigsCount nKeysCount : ℤ) → Checked Bool
  | 0,_,_,_,_ => fault "while"
  | fuel+1,isig,ikey,nSigsCount,nKeysCount =>
    if nSigsCount > 0 then do
      let vchSig ← stacktop stack isig
      let vchPubKey ← stacktop stack ikey
      lift (checkEncodings flags vchSig vchPubKey)
      let fOk := checker.checkSig vchSig vchPubKey scriptCode
      let (isig,nSigsCount) := if fOk then (isig + 1,nSigsCount - 1) else (isig,nSigsCount)
      let ikey := ikey + 1
      let nKeysCount := nKeysCount - 1
      if nSigsCount > nKeysCount then .ok false
      else multiSigLoopAt flags checker scriptCode stack fuel isig ikey nSigsCount nKeysCount
    else .ok true

/-- `CScriptNum(stacktop(-i)).getint()`, between zero and a bound. -/
def readCountAt (fRequireMinimal : Bool) (most : ℕ) (failure : ScriptError) (stack : List valtype)
    (i : ℕ) : Checked ℕ := do
  let top ← stacktop stack i
  let bn ← CScriptNum.ofVchAt fRequireMinimal nDefaultMaxNumSize top
  let n := bn.getint
  if n < 0 ∨ n > most then fail failure else .ok n.toNat

/-- The positions `i`, `ikey` and `isig` count from the top of the stack. -/
def evalCheckMultiSigAt (isVerify : Bool) (flags : ScriptFlags) (checker : BaseSignatureChecker)
    (m : Machine) : Checked Machine := do
  let fRequireMinimal := hasFlag flags SCRIPT_VERIFY_MINIMALDATA
  let i := 1
  needSize m.stack i
  let nKeysCount ← readCountAt fRequireMinimal MAX_PUBKEYS_PER_MULTISIG .pubkeyCount m.stack i
  let nOpCount := m.nOpCount + nKeysCount
  if nOpCount > MAX_OPS_PER_SCRIPT then fail .opCount
  else do
    let ikey := i + 1
    let i := ikey + nKeysCount
    needSize m.stack i
    let nSigsCount ← readCountAt fRequireMinimal nKeysCount .sigCount m.stack i
    let isig := i + 1
    let i := isig + nSigsCount
    needSize m.stack i
    let scriptCode ← (List.range nSigsCount).foldlM (fun code k => do
      let vchSig ← stacktop m.stack (isig + k)
      .ok (code.findAndDelete (pushData vchSig))) m.pbegincodehash
    let fSuccess ← multiSigLoopAt flags checker scriptCode m.stack (nKeysCount + 1) isig ikey
      nSigsCount nKeysCount
    let stack ← popTimes (i - 1) m.stack
    needSize stack 1
    let dummy ← stacktop stack 1
    if hasFlag flags SCRIPT_VERIFY_NULLDUMMY && dummy.length != 0 then fail .sigNullDummy
    else do
      let stack ← popstack stack
      let stack ← pushAnswer isVerify fSuccess .checkMultiSigVerify stack
      .ok { m with stack, nOpCount }

def evalOpcodeAt (flags : ScriptFlags) (checker : BaseSignatureChecker) (opcode : UInt8)
    (pc : CScript) (m : Machine) : Checked Machine :=
  let fRequireMinimal := hasFlag flags SCRIPT_VERIFY_MINIMALDATA
  if opcode = OP_1NEGATE ∨ (OP_1 ≤ opcode ∧ opcode ≤ OP_16) then do
    let vch ← CScriptNum.getvch ((opcode.toNat : ℤ) - 0x50)
    .ok { m with stack := vch::m.stack }
  else if opcode = OP_NOP then .ok m
  else if opcode = OP_CHECKLOCKTIMEVERIFY then evalCheckLockTimeVerifyAt flags checker m
  else if opcode = OP_CHECKSEQUENCEVERIFY then evalCheckSequenceVerifyAt flags checker m
  else if isUpgradableNop opcode then lift (discourage flags m)
  else if opcode = OP_IF then evalIfAt false m
  else if opcode = OP_NOTIF then evalIfAt true m
  else if opcode = OP_ELSE then evalElseAt m
  else if opcode = OP_ENDIF then evalEndifAt m
  else if opcode = OP_VERIFY then onStackAt evalVerifyAt m
  else if opcode = OP_RETURN then fail .opReturn
  else if opcode = OP_TOALTSTACK then evalToAltstackAt m
  else if opcode = OP_FROMALTSTACK then evalFromAltstackAt m
  else if opcode = OP_PICK then onStackAt (evalPickRollAt fRequireMinimal false) m
  else if opcode = OP_ROLL then onStackAt (evalPickRollAt fRequireMinimal true) m
  else if opcode = OP_EQUAL then onStackAt (evalEqualAt false) m
  else if opcode = OP_EQUALVERIFY then onStackAt (evalEqualAt true) m
  else if isNumericOpcode opcode then onStackAt (evalNumericOpAt fRequireMinimal opcode) m
  else if opcode = OP_RIPEMD160 then
    onStackAt (evalHashAt fun vch => serializeBits 20 (Crypto.ripemd160 vch)) m
  else if opcode = OP_SHA1 then
    onStackAt (evalHashAt fun vch => serializeBits 20 (Crypto.sha1 vch)) m
  else if opcode = OP_SHA256 then
    onStackAt (evalHashAt fun vch => serializeBits 32 (Crypto.sha256 vch)) m
  else if opcode = OP_HASH160 then
    onStackAt (evalHashAt fun vch => serializeBits 20 (Crypto.hash160 vch)) m
  else if opcode = OP_HASH256 then
    onStackAt (evalHashAt fun vch => serializeBits 32 (Crypto.hash256 vch)) m
  else if opcode = OP_CODESEPARATOR then .ok { m with pbegincodehash := pc }
  else if opcode = OP_CHECKSIG then evalCheckSigAt false flags checker m
  else if opcode = OP_CHECKSIGVERIFY then evalCheckSigAt true flags checker m
  else if opcode = OP_CHECKMULTISIG then evalCheckMultiSigAt false flags checker m
  else if opcode = OP_CHECKMULTISIGVERIFY then evalCheckMultiSigAt true flags checker m
  else onStackAt (evalStackOpAt opcode) m

def execOpAt (flags : ScriptFlags) (checker : BaseSignatureChecker) (op : ScriptOp) (m : Machine) :
    Checked Machine :=
  if m.fExec && op.opcode ≤ OP_PUSHDATA4 then
    if hasFlag flags SCRIPT_VERIFY_MINIMALDATA && !checkMinimalPush op.vch op.opcode then
      fail .minimalData
    else .ok { m with stack := op.vch :: m.stack }
  else if m.fExec || (OP_IF ≤ op.opcode && op.opcode ≤ OP_ENDIF) then
    evalOpcodeAt flags checker op.opcode op.pc m
  else .ok m

def evalStepAt (flags : ScriptFlags) (checker : BaseSignatureChecker) (op : ScriptOp)
    (m : Machine) : Checked Machine :=
  if op.vch.length > MAX_SCRIPT_ELEMENT_SIZE then fail .pushSize
  else do
    let m ← lift (countOp op.opcode m)
    if isDisabledOpcode op.opcode then fail .disabledOpcode
    else do
      let m ← execOpAt flags checker op m
      lift (checkStackSize m)

/-- The position and the machine after a number of rounds of the loop, or where it ended. -/
def evalRoundsAt (flags : ScriptFlags) (checker : BaseSignatureChecker) :
    ℕ → CScript → Machine → Checked (CScript × Machine)
  | 0,pc,m => .ok (pc,m)
  | rounds+1,pc,m =>
    if pc.isEmpty then .ok (pc,m)
    else
      match getOp pc with
      | none => fail .badOpcode
      | some op => do
        let m ← evalStepAt flags checker op m
        evalRoundsAt flags checker rounds op.pc m

def evalLoopAt (flags : ScriptFlags) (checker : BaseSignatureChecker) (fuel : ℕ) (pc : CScript)
    (m : Machine) : Checked Machine := do
  let (pc,m) ← evalRoundsAt flags checker fuel pc m
  ensure pc.isEmpty "while"
  .ok m

def evalScriptAt (stack : List valtype) (script : CScript) (flags : ScriptFlags)
    (checker : BaseSignatureChecker) : Checked (List valtype) :=
  if script.length > MAX_SCRIPT_SIZE then fail .scriptSize
  else do
    let m ← evalLoopAt flags checker script.length script { stack, pbegincodehash := script }
    if m.vfExec.isEmpty then .ok m.stack else fail .unbalancedConditional

def evalTrueAt (stack : List valtype) (script : CScript) (flags : ScriptFlags)
    (checker : BaseSignatureChecker) : Checked (List valtype) := do
  let stack ← evalScriptAt stack script flags checker
  if stack.isEmpty then fail .evalFalse
  else do
    let back ← top stack 1
    if castToBool back then .ok stack else fail .evalFalse

/-- The extra evaluation of a pay-to-script-hash spend. -/
def evalRedeemScriptAt (stackCopy : List valtype) (scriptSig : CScript) (flags : ScriptFlags)
    (checker : BaseSignatureChecker) : Checked (List valtype) :=
  if !scriptSig.isPushOnly then fail .sigPushOnly
  else do
    ensure (stackCopy ≠ []) "!stack.empty()"
    let pubKeySerialized ← top stackCopy 1
    let stack ← popstack stackCopy
    evalTrueAt stack pubKeySerialized flags checker

def checkCleanStackAt (stack : List valtype) (flags : ScriptFlags) : Checked Unit :=
  if hasFlag flags SCRIPT_VERIFY_CLEANSTACK then do
    ensure (hasFlag flags SCRIPT_VERIFY_P2SH) "(flags & SCRIPT_VERIFY_P2SH) != 0"
    if stack.length ≠ 1 then fail .cleanStack else .ok ()
  else .ok ()

def verifyStackAt (scriptSig scriptPubKey : CScript) (flags : ScriptFlags)
    (checker : BaseSignatureChecker) : Checked (List valtype) := do
  let stackCopy ← evalScriptAt [] scriptSig flags checker
  let stack ← evalTrueAt stackCopy scriptPubKey flags checker
  if hasFlag flags SCRIPT_VERIFY_P2SH && scriptPubKey.isPayToScriptHash then
    evalRedeemScriptAt stackCopy scriptSig flags checker
  else .ok stack

def verifyScriptAt (scriptSig scriptPubKey : CScript) (flags : ScriptFlags)
    (checker : BaseSignatureChecker) : Checked Unit :=
  if hasFlag flags SCRIPT_VERIFY_SIGPUSHONLY && !scriptSig.isPushOnly then fail .sigPushOnly
  else do
    let stack ← verifyStackAt scriptSig scriptPubKey flags checker
    checkCleanStackAt stack flags

end
end Sidechain
