import Sidechain.Library.Costed
import Sidechain.Script.Verify

/-! The script interpreter with its calls of `CheckSig` counted. Only the four signature operations
make such calls; with the count forgotten this is the interpreter itself. -/
namespace Sidechain
open Costed

variable [Crypto]

def evalCheckSigCounted (isVerify : Bool) (flags : ScriptFlags) (checker : BaseSignatureChecker)
    (m : Machine) : Costed ScriptError Machine :=
  match m.stack with
  | vchPubKey::vchSig::s => do
    let scriptCode := m.pbegincodehash.findAndDelete (pushData vchSig)
    lift (checkEncodings flags vchSig vchPubKey)
    let fSuccess ← call (checker.checkSig vchSig vchPubKey scriptCode)
    let stack ← lift (verifyTop isVerify fSuccess .checkSigVerify s)
    pure { m with stack }
  | _ => lift (.error .invalidStackOperation)

def multiSigLoopCounted (flags : ScriptFlags) (checker : BaseSignatureChecker)
    (scriptCode : CScript) : List valtype → List valtype → Costed ScriptError Bool
  | [],_ => pure true
  | _::_,[] => pure false
  | sig::sigs,key::keys => do
    lift (checkEncodings flags sig key)
    let fOk ← call (checker.checkSig sig key scriptCode)
    if fOk then
      if sigs.length > keys.length then pure false
      else multiSigLoopCounted flags checker scriptCode sigs keys
    else if (sig::sigs).length > keys.length then pure false
    else multiSigLoopCounted flags checker scriptCode (sig::sigs) keys

def evalCheckMultiSigCounted (isVerify : Bool) (flags : ScriptFlags)
    (checker : BaseSignatureChecker) (m : Machine) : Costed ScriptError Machine :=
  let fRequireMinimal := hasFlag flags SCRIPT_VERIFY_MINIMALDATA
  match m.stack with
  | [] => lift (.error .invalidStackOperation)
  | vchKeysCount::stack => do
    let nKeysCount ←
      lift (readCount fRequireMinimal MAX_PUBKEYS_PER_MULTISIG .pubkeyCount vchKeysCount)
    let nOpCount := m.nOpCount + nKeysCount
    if nOpCount > MAX_OPS_PER_SCRIPT then lift (.error .opCount)
    else do
      let (keys,vchSigsCount,stack) ← lift (takeGroup nKeysCount stack)
      let nSigsCount ← lift (readCount fRequireMinimal nKeysCount .sigCount vchSigsCount)
      let (sigs,dummy,stack) ← lift (takeGroup nSigsCount stack)
      let scriptCode := sigs.foldl (fun code sig => code.findAndDelete (pushData sig)) m.pbegincodehash
      let fSuccess ← multiSigLoopCounted flags checker scriptCode sigs keys
      if hasFlag flags SCRIPT_VERIFY_NULLDUMMY && dummy.length != 0 then lift (.error .sigNullDummy)
      else do
        let stack ← lift (verifyTop isVerify fSuccess .checkMultiSigVerify stack)
        pure { m with stack, nOpCount }

def evalOpcodeCounted (flags : ScriptFlags) (checker : BaseSignatureChecker) (opcode : UInt8)
    (pc : CScript) (m : Machine) : Costed ScriptError Machine :=
  if opcode = OP_CHECKSIG then evalCheckSigCounted false flags checker m
  else if opcode = OP_CHECKSIGVERIFY then evalCheckSigCounted true flags checker m
  else if opcode = OP_CHECKMULTISIG then evalCheckMultiSigCounted false flags checker m
  else if opcode = OP_CHECKMULTISIGVERIFY then evalCheckMultiSigCounted true flags checker m
  else lift (evalOpcode flags checker opcode pc m)

def execOpCounted (flags : ScriptFlags) (checker : BaseSignatureChecker) (op : ScriptOp)
    (m : Machine) : Costed ScriptError Machine :=
  if m.fExec && op.opcode ≤ OP_PUSHDATA4 then
    if hasFlag flags SCRIPT_VERIFY_MINIMALDATA && !checkMinimalPush op.vch op.opcode then
      lift (.error .minimalData)
    else pure { m with stack := op.vch :: m.stack }
  else if m.fExec || (OP_IF ≤ op.opcode && op.opcode ≤ OP_ENDIF) then
    evalOpcodeCounted flags checker op.opcode op.pc m
  else pure m

def evalStepCounted (flags : ScriptFlags) (checker : BaseSignatureChecker) (op : ScriptOp)
    (m : Machine) : Costed ScriptError Machine :=
  if op.vch.length > MAX_SCRIPT_ELEMENT_SIZE then lift (.error .pushSize)
  else do
    let m ← lift (countOp op.opcode m)
    if isDisabledOpcode op.opcode then lift (.error .disabledOpcode)
    else do
      let m ← execOpCounted flags checker op m
      lift (checkStackSize m)

def evalLoopCounted (flags : ScriptFlags) (checker : BaseSignatureChecker) :
    ℕ → CScript → Machine → Costed ScriptError Machine
  | 0,_,m => pure m
  | fuel+1,pc,m =>
    if pc.isEmpty then pure m
    else
      match getOp pc with
      | none => lift (.error .badOpcode)
      | some op => do
        let m ← evalStepCounted flags checker op m
        evalLoopCounted flags checker fuel op.pc m

def evalScriptCounted (stack : List valtype) (script : CScript) (flags : ScriptFlags)
    (checker : BaseSignatureChecker) : Costed ScriptError (List valtype) :=
  if script.length > MAX_SCRIPT_SIZE then lift (.error .scriptSize)
  else do
    let m ← evalLoopCounted flags checker script.length script { stack, pbegincodehash := script }
    if m.vfExec.isEmpty then pure m.stack else lift (.error .unbalancedConditional)

def evalTrueCounted (stack : List valtype) (script : CScript) (flags : ScriptFlags)
    (checker : BaseSignatureChecker) : Costed ScriptError (List valtype) := do
  let stack ← evalScriptCounted stack script flags checker
  if topIsTrue stack then pure stack else lift (.error .evalFalse)

def evalRedeemScriptCounted (stackCopy : List valtype) (scriptSig : CScript) (flags : ScriptFlags)
    (checker : BaseSignatureChecker) : Costed Halt StackResult :=
  if !scriptSig.isPushOnly then pure (.error .sigPushOnly)
  else
    match stackCopy with
    | [] => lift (.error (.assertion "!stack.empty()"))
    | pubKey2::stack => attempt (evalTrueCounted stack pubKey2 flags checker)

def verifyStackCounted (scriptSig scriptPubKey : CScript) (flags : ScriptFlags)
    (checker : BaseSignatureChecker) : Costed Halt StackResult := do
  match ← attempt (evalScriptCounted [] scriptSig flags checker) with
  | .error e => pure (.error e)
  | .ok stackCopy =>
    match ← attempt (evalTrueCounted stackCopy scriptPubKey flags checker) with
    | .error e => pure (.error e)
    | .ok stack =>
      if hasFlag flags SCRIPT_VERIFY_P2SH && scriptPubKey.isPayToScriptHash then
        evalRedeemScriptCounted stackCopy scriptSig flags checker
      else pure (.ok stack)

def verifyScriptCounted (scriptSig scriptPubKey : CScript) (flags : ScriptFlags)
    (checker : BaseSignatureChecker) : Costed Halt (Except ScriptError Unit) :=
  if hasFlag flags SCRIPT_VERIFY_SIGPUSHONLY && !scriptSig.isPushOnly then
    pure (.error .sigPushOnly)
  else do
    match ← verifyStackCounted scriptSig scriptPubKey flags checker with
    | .error e => pure (.error e)
    | .ok stack => lift (checkCleanStack stack flags)

theorem evalCheckSigCounted_result (isVerify : Bool) (flags : ScriptFlags)
    (checker : BaseSignatureChecker) (m : Machine) :
    (evalCheckSigCounted isVerify flags checker m).result =
      evalCheckSig isVerify flags checker m := by
  unfold evalCheckSigCounted evalCheckSig
  rcases m.stack with _ | ⟨vchPubKey,_ | ⟨vchSig,s⟩⟩
  · rfl
  · rfl
  · simp only [result_bind,result_lift,result_call]
    rfl

theorem multiSigLoopCounted_result (flags : ScriptFlags) (checker : BaseSignatureChecker)
    (scriptCode : CScript) (sigs keys : List valtype) :
    (multiSigLoopCounted flags checker scriptCode sigs keys).result =
      multiSigLoop flags checker scriptCode sigs keys := by
  induction keys generalizing sigs with
  | nil => cases sigs <;> rfl
  | cons key keys ih =>
    cases sigs with
    | nil => rfl
    | cons sig sigs =>
      unfold multiSigLoopCounted multiSigLoop
      simp only [result_bind,result_lift,result_call,result_ite,result_pure,ih]
      rfl

theorem evalCheckMultiSigCounted_result (isVerify : Bool) (flags : ScriptFlags)
    (checker : BaseSignatureChecker) (m : Machine) :
    (evalCheckMultiSigCounted isVerify flags checker m).result =
      evalCheckMultiSig isVerify flags checker m := by
  unfold evalCheckMultiSigCounted evalCheckMultiSig
  cases m.stack with
  | nil => rfl
  | cons vchKeysCount stack =>
    simp only [result_bind,result_lift,result_ite,result_pure,multiSigLoopCounted_result]

theorem evalOpcodeCounted_result (flags : ScriptFlags) (checker : BaseSignatureChecker)
    (opcode : UInt8) (pc : CScript) (m : Machine) :
    (evalOpcodeCounted flags checker opcode pc m).result =
      evalOpcode flags checker opcode pc m := by
  unfold evalOpcodeCounted
  split_ifs with h1 h2 h3 h4
  · subst h1
    exact evalCheckSigCounted_result false flags checker m
  · subst h2
    exact evalCheckSigCounted_result true flags checker m
  · subst h3
    exact evalCheckMultiSigCounted_result false flags checker m
  · subst h4
    exact evalCheckMultiSigCounted_result true flags checker m
  · rfl

theorem execOpCounted_result (flags : ScriptFlags) (checker : BaseSignatureChecker) (op : ScriptOp)
    (m : Machine) : (execOpCounted flags checker op m).result = execOp flags checker op m := by
  unfold execOpCounted execOp
  simp only [result_ite,result_lift,result_pure,evalOpcodeCounted_result]

theorem evalStepCounted_result (flags : ScriptFlags) (checker : BaseSignatureChecker)
    (op : ScriptOp) (m : Machine) :
    (evalStepCounted flags checker op m).result = evalStep flags checker op m := by
  unfold evalStepCounted evalStep
  simp only [result_ite,result_bind,result_lift,execOpCounted_result]

theorem evalLoopCounted_result (flags : ScriptFlags) (checker : BaseSignatureChecker) (fuel : ℕ)
    (pc : CScript) (m : Machine) :
    (evalLoopCounted flags checker fuel pc m).result = evalLoop flags checker fuel pc m := by
  induction fuel generalizing pc m with
  | zero => rfl
  | succ fuel ih =>
    unfold evalLoopCounted evalLoop
    rw [result_ite]
    cases getOp pc with
    | none => rfl
    | some op => simp only [result_bind,result_pure,evalStepCounted_result,ih]

theorem evalScriptCounted_result (stack : List valtype) (script : CScript) (flags : ScriptFlags)
    (checker : BaseSignatureChecker) :
    (evalScriptCounted stack script flags checker).result =
      evalScript stack script flags checker := by
  unfold evalScriptCounted evalScript
  simp only [result_ite,result_bind,result_lift,result_pure,evalLoopCounted_result]

theorem evalTrueCounted_result (stack : List valtype) (script : CScript) (flags : ScriptFlags)
    (checker : BaseSignatureChecker) : (evalTrueCounted stack script flags checker).result =
      evalTrue stack script flags checker := by
  unfold evalTrueCounted evalTrue
  simp only [result_ite,result_bind,result_lift,result_pure,evalScriptCounted_result]

theorem evalRedeemScriptCounted_result (stackCopy : List valtype) (scriptSig : CScript)
    (flags : ScriptFlags) (checker : BaseSignatureChecker) :
    (evalRedeemScriptCounted stackCopy scriptSig flags checker).result =
      evalRedeemScript stackCopy scriptSig flags checker := by
  unfold evalRedeemScriptCounted evalRedeemScript
  rw [result_ite]
  cases stackCopy with
  | nil => rfl
  | cons pubKey2 stack => rw [result_attempt,evalTrueCounted_result,result_pure]

theorem verifyStackCounted_result (scriptSig scriptPubKey : CScript) (flags : ScriptFlags)
    (checker : BaseSignatureChecker) :
    (verifyStackCounted scriptSig scriptPubKey flags checker).result =
      verifyStack scriptSig scriptPubKey flags checker := by
  unfold verifyStackCounted verifyStack
  rw [result_bind_ok (result_attempt _),evalScriptCounted_result]
  cases evalScript [] scriptSig flags checker with
  | error e => rfl
  | ok stackCopy =>
    simp only
    rw [result_bind_ok (result_attempt _),evalTrueCounted_result]
    cases evalTrue stackCopy scriptPubKey flags checker with
    | error e => rfl
    | ok stack =>
      simp only
      rw [result_ite,evalRedeemScriptCounted_result,result_pure]

theorem verifyScriptCounted_result (scriptSig scriptPubKey : CScript) (flags : ScriptFlags)
    (checker : BaseSignatureChecker) :
    (verifyScriptCounted scriptSig scriptPubKey flags checker).result =
      verifyScript scriptSig scriptPubKey flags checker := by
  unfold verifyScriptCounted verifyScript
  rw [result_ite,result_bind,verifyStackCounted_result,result_pure]
  cases verifyStack scriptSig scriptPubKey flags checker with
  | error h => rfl
  | ok answer => cases answer <;> rfl

end Sidechain
