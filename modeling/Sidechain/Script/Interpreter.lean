import Sidechain.Library.Run
import Sidechain.Primitives.Transaction
import Sidechain.Script.ScriptNum

/-! The script interpreter: one handler for each family of opcodes, the step that reads and runs
one operation, and the loop of `EvalScript`. Both stacks have their top first. -/
namespace Sidechain

variable [Crypto]

/-- The virtual calls of a `BaseSignatureChecker`. -/
structure BaseSignatureChecker where
  checkSig : valtype → valtype → CScript → Bool := fun _ _ _ => false
  checkLockTime : CScriptNum → Bool := fun _ => false
  checkSequence : CScriptNum → Bool := fun _ => false

/-- What `EvalScript` keeps between two operations, apart from its position. -/
structure Machine where
  stack : List valtype := []
  altstack : List valtype := []
  vfExec : List Bool := []
  nOpCount : ℕ := 0
  pbegincodehash : CScript
  deriving DecidableEq, Repr

/-- No enclosing branch is a skipped one. -/
def Machine.fExec (m : Machine) : Bool := m.vfExec.all id

def isLowDERSignature (vchSig : valtype) : Except ScriptError Unit :=
  if !isValidSignatureEncoding vchSig then .error .sigDer
  else if !Crypto.checkLowS vchSig.dropLast then .error .sigHighS
  else .ok ()

def checkSignatureEncoding (vchSig : valtype) (flags : ScriptFlags) : Except ScriptError Unit :=
  if vchSig = [] then .ok ()
  else if hasFlag flags (SCRIPT_VERIFY_DERSIG ||| SCRIPT_VERIFY_LOW_S ||| SCRIPT_VERIFY_STRICTENC) &&
      !isValidSignatureEncoding vchSig then .error .sigDer
  else do
    if hasFlag flags SCRIPT_VERIFY_LOW_S then isLowDERSignature vchSig else pure ()
    if hasFlag flags SCRIPT_VERIFY_STRICTENC && !isDefinedHashtypeSignature vchSig then
      .error .sigHashtype
    else pure ()

def checkPubKeyEncoding (vchPubKey : valtype) (flags : ScriptFlags) : Except ScriptError Unit :=
  if hasFlag flags SCRIPT_VERIFY_STRICTENC && !isCompressedOrUncompressedPubKey vchPubKey then
    .error .pubkeyType
  else .ok ()

/-- Erase the copies of `b` a position starts with. -/
def dropAll (b : CScript) : ℕ → CScript → CScript
  | 0,pc => pc
  | fuel+1,pc => if b.isPrefixOf pc then dropAll b fuel (pc.drop b.length) else pc

/-- Erase the copies of `b` at every operation boundary the scan reaches. -/
def findAndDeleteFrom (b : CScript) : ℕ → CScript → CScript
  | 0,pc => pc
  | fuel+1,pc =>
    let pc := dropAll b pc.length pc
    match getOp pc with
    | none => pc
    | some op => pc.take (pc.length - op.pc.length) ++ findAndDeleteFrom b fuel op.pc

def CScript.findAndDelete (script b : CScript) : CScript :=
  if b = [] then script else findAndDeleteFrom b (script.length + 1) script

def isDisabledOpcode (opcode : UInt8) : Bool :=
  opcode == OP_CAT || opcode == OP_SUBSTR || opcode == OP_LEFT || opcode == OP_RIGHT ||
  opcode == OP_INVERT || opcode == OP_AND || opcode == OP_OR || opcode == OP_XOR ||
  opcode == OP_2MUL || opcode == OP_2DIV || opcode == OP_MUL || opcode == OP_DIV ||
  opcode == OP_MOD || opcode == OP_LSHIFT || opcode == OP_RSHIFT

def isUpgradableNop (opcode : UInt8) : Bool :=
  opcode == OP_NOP1 || opcode == OP_NOP4 || opcode == OP_NOP5 || opcode == OP_NOP6 ||
  opcode == OP_NOP7 || opcode == OP_NOP8 || opcode == OP_NOP9 || opcode == OP_NOP10

abbrev StackResult := Except ScriptError (List valtype)

/-- Operations that only rearrange the stack. -/
def evalStackOp (opcode : UInt8) (stack : List valtype) : StackResult :=
  if opcode = OP_2DROP then
    match stack with
    | _::_::s => .ok s
    | _ => .error .invalidStackOperation
  else if opcode = OP_2DUP then
    match stack with
    | x2::x1::s => .ok (x2::x1::x2::x1::s)
    | _ => .error .invalidStackOperation
  else if opcode = OP_3DUP then
    match stack with
    | x3::x2::x1::s => .ok (x3::x2::x1::x3::x2::x1::s)
    | _ => .error .invalidStackOperation
  else if opcode = OP_2OVER then
    match stack with
    | x4::x3::x2::x1::s => .ok (x2::x1::x4::x3::x2::x1::s)
    | _ => .error .invalidStackOperation
  else if opcode = OP_2ROT then
    match stack with
    | x6::x5::x4::x3::x2::x1::s => .ok (x2::x1::x6::x5::x4::x3::s)
    | _ => .error .invalidStackOperation
  else if opcode = OP_2SWAP then
    match stack with
    | x4::x3::x2::x1::s => .ok (x2::x1::x4::x3::s)
    | _ => .error .invalidStackOperation
  else if opcode = OP_IFDUP then
    match stack with
    | x::s => .ok (if castToBool x then x::x::s else x::s)
    | _ => .error .invalidStackOperation
  else if opcode = OP_DEPTH then .ok (CScriptNum.serialize stack.length :: stack)
  else if opcode = OP_DROP then
    match stack with
    | _::s => .ok s
    | _ => .error .invalidStackOperation
  else if opcode = OP_DUP then
    match stack with
    | x::s => .ok (x::x::s)
    | _ => .error .invalidStackOperation
  else if opcode = OP_NIP then
    match stack with
    | x2::_::s => .ok (x2::s)
    | _ => .error .invalidStackOperation
  else if opcode = OP_OVER then
    match stack with
    | x2::x1::s => .ok (x1::x2::x1::s)
    | _ => .error .invalidStackOperation
  else if opcode = OP_ROT then
    match stack with
    | x3::x2::x1::s => .ok (x1::x3::x2::s)
    | _ => .error .invalidStackOperation
  else if opcode = OP_SWAP then
    match stack with
    | x2::x1::s => .ok (x1::x2::s)
    | _ => .error .invalidStackOperation
  else if opcode = OP_TUCK then
    match stack with
    | x2::x1::s => .ok (x2::x1::x2::s)
    | _ => .error .invalidStackOperation
  else if opcode = OP_SIZE then
    match stack with
    | x::s => .ok (CScriptNum.serialize x.length :: x :: s)
    | _ => .error .invalidStackOperation
  else .error .badOpcode

/-- `getint` clamps to int; four-byte numbers are always inside. -/
def CScriptNum.getint (bn : CScriptNum) : ℤ := max (-2^31) (min bn (2^31 - 1))

def evalPickRoll (fRequireMinimal roll : Bool) : List valtype → StackResult
  | x::y::s => do
    let bn ← CScriptNum.ofVch fRequireMinimal nDefaultMaxNumSize x
    let n := bn.getint
    let stack := y::s
    if n < 0 ∨ n ≥ stack.length then .error .invalidStackOperation
    else
      let vch := stack.getD n.toNat []
      .ok (vch :: if roll then stack.eraseIdx n.toNat else stack)
  | _ => .error .invalidStackOperation

/-- The last step of an operation with a VERIFY form. -/
def verifyTop (isVerify fSuccess : Bool) (failure : ScriptError) (s : List valtype) : StackResult :=
  if isVerify then (if fSuccess then .ok s else .error failure) else .ok (vchBool fSuccess :: s)

def ofBool (b : Bool) : CScriptNum := if b then 1 else 0

def evalUnary (fRequireMinimal : Bool) (f : CScriptNum → CScriptNum) : List valtype → StackResult
  | x::s => do
    let bn ← CScriptNum.ofVch fRequireMinimal nDefaultMaxNumSize x
    .ok ((f bn).serialize :: s)
  | _ => .error .invalidStackOperation

def evalBinary (fRequireMinimal : Bool) (f : CScriptNum → CScriptNum → CScriptNum) :
    List valtype → StackResult
  | x2::x1::s => do
    let bn1 ← CScriptNum.ofVch fRequireMinimal nDefaultMaxNumSize x1
    let bn2 ← CScriptNum.ofVch fRequireMinimal nDefaultMaxNumSize x2
    .ok ((f bn1 bn2).serialize :: s)
  | _ => .error .invalidStackOperation

/-- Fails on a false top, otherwise pops it. -/
def popTrue (failure : ScriptError) : List valtype → StackResult
  | x::s => if castToBool x then .ok s else .error failure
  | _ => .error .invalidStackOperation

def evalWithin (fRequireMinimal : Bool) : List valtype → StackResult
  | x3::x2::x1::s => do
    let bn1 ← CScriptNum.ofVch fRequireMinimal nDefaultMaxNumSize x1
    let bn2 ← CScriptNum.ofVch fRequireMinimal nDefaultMaxNumSize x2
    let bn3 ← CScriptNum.ofVch fRequireMinimal nDefaultMaxNumSize x3
    .ok (vchBool (decide (bn2 ≤ bn1 ∧ bn1 < bn3)) :: s)
  | _ => .error .invalidStackOperation

def evalEqual (isVerify : Bool) : List valtype → StackResult
  | x2::x1::s => verifyTop isVerify (x1 == x2) .equalVerify s
  | _ => .error .invalidStackOperation

def evalHash (hash : valtype → valtype) : List valtype → StackResult
  | x::s => .ok (hash x :: s)
  | _ => .error .invalidStackOperation

/-- The numeric operations. -/
def evalNumericOp (fRequireMinimal : Bool) (opcode : UInt8) (stack : List valtype) : StackResult :=
  let unary := fun f => evalUnary fRequireMinimal f stack
  let binary := fun f => evalBinary fRequireMinimal f stack
  if opcode = OP_1ADD then unary (· + 1)
  else if opcode = OP_1SUB then unary (· - 1)
  else if opcode = OP_NEGATE then unary (- ·)
  else if opcode = OP_ABS then unary fun bn => if bn < 0 then -bn else bn
  else if opcode = OP_NOT then unary fun bn => ofBool (bn == 0)
  else if opcode = OP_0NOTEQUAL then unary fun bn => ofBool (bn != 0)
  else if opcode = OP_ADD then binary (· + ·)
  else if opcode = OP_SUB then binary (· - ·)
  else if opcode = OP_BOOLAND then binary fun bn1 bn2 => ofBool (bn1 != 0 && bn2 != 0)
  else if opcode = OP_BOOLOR then binary fun bn1 bn2 => ofBool (bn1 != 0 || bn2 != 0)
  else if opcode = OP_NUMEQUAL then binary fun bn1 bn2 => ofBool (bn1 == bn2)
  else if opcode = OP_NUMEQUALVERIFY then do
    let s ← binary fun bn1 bn2 => ofBool (bn1 == bn2)
    popTrue .numEqualVerify s
  else if opcode = OP_NUMNOTEQUAL then binary fun bn1 bn2 => ofBool (bn1 != bn2)
  else if opcode = OP_LESSTHAN then binary fun bn1 bn2 => ofBool (decide (bn1 < bn2))
  else if opcode = OP_GREATERTHAN then binary fun bn1 bn2 => ofBool (decide (bn1 > bn2))
  else if opcode = OP_LESSTHANOREQUAL then binary fun bn1 bn2 => ofBool (decide (bn1 ≤ bn2))
  else if opcode = OP_GREATERTHANOREQUAL then binary fun bn1 bn2 => ofBool (decide (bn1 ≥ bn2))
  else if opcode = OP_MIN then binary fun bn1 bn2 => if bn1 < bn2 then bn1 else bn2
  else if opcode = OP_MAX then binary fun bn1 bn2 => if bn1 > bn2 then bn1 else bn2
  else if opcode = OP_WITHIN then evalWithin fRequireMinimal stack
  else .error .badOpcode

def isNumericOpcode (opcode : UInt8) : Bool :=
  opcode == OP_1ADD || opcode == OP_1SUB || OP_NEGATE ≤ opcode && opcode ≤ OP_0NOTEQUAL ||
  opcode == OP_ADD || opcode == OP_SUB || OP_BOOLAND ≤ opcode && opcode ≤ OP_WITHIN

/-- A lock time operand is read with five bytes and must not be negative. -/
def readLockTime (fRequireMinimal : Bool) : List valtype → Except ScriptError CScriptNum
  | x::_ => do
    let n ← CScriptNum.ofVch fRequireMinimal 5 x
    if n < 0 then .error .negativeLocktime else .ok n
  | _ => .error .invalidStackOperation

def discourage (flags : ScriptFlags) (m : Machine) : Except ScriptError Machine :=
  if hasFlag flags SCRIPT_VERIFY_DISCOURAGE_UPGRADABLE_NOPS then .error .discourageUpgradableNops
  else .ok m

def evalCheckLockTimeVerify (flags : ScriptFlags) (checker : BaseSignatureChecker) (m : Machine) :
    Except ScriptError Machine :=
  if !hasFlag flags SCRIPT_VERIFY_CHECKLOCKTIMEVERIFY then discourage flags m
  else do
    let nLockTime ← readLockTime (hasFlag flags SCRIPT_VERIFY_MINIMALDATA) m.stack
    if !checker.checkLockTime nLockTime then .error .unsatisfiedLocktime else .ok m

def SEQUENCE_LOCKTIME_DISABLE_FLAG : ℕ := 0x80000000
def SEQUENCE_LOCKTIME_TYPE_FLAG : ℕ := 0x00400000
def SEQUENCE_LOCKTIME_MASK : ℕ := 0x0000ffff

def evalCheckSequenceVerify (flags : ScriptFlags) (checker : BaseSignatureChecker) (m : Machine) :
    Except ScriptError Machine :=
  if !hasFlag flags SCRIPT_VERIFY_CHECKSEQUENCEVERIFY then discourage flags m
  else do
    let nSequence ← readLockTime (hasFlag flags SCRIPT_VERIFY_MINIMALDATA) m.stack
    if nSequence.toNat &&& SEQUENCE_LOCKTIME_DISABLE_FLAG ≠ 0 then .ok m
    else if !checker.checkSequence nSequence then .error .unsatisfiedLocktime
    else .ok m

/-- `OP_IF` and `OP_NOTIF`: a skipped conditional opens a skipped branch. -/
def evalIf (notif : Bool) (m : Machine) : Except ScriptError Machine :=
  if m.fExec then
    match m.stack with
    | x::s => .ok { m with stack := s, vfExec := (castToBool x != notif) :: m.vfExec }
    | [] => .error .unbalancedConditional
  else .ok { m with vfExec := false :: m.vfExec }

def evalElse (m : Machine) : Except ScriptError Machine :=
  match m.vfExec with
  | f::fs => .ok { m with vfExec := (!f) :: fs }
  | [] => .error .unbalancedConditional

def evalEndif (m : Machine) : Except ScriptError Machine :=
  match m.vfExec with
  | _::fs => .ok { m with vfExec := fs }
  | [] => .error .unbalancedConditional

def evalToAltstack (m : Machine) : Except ScriptError Machine :=
  match m.stack with
  | x::s => .ok { m with stack := s, altstack := x::m.altstack }
  | [] => .error .invalidStackOperation

def evalFromAltstack (m : Machine) : Except ScriptError Machine :=
  match m.altstack with
  | x::s => .ok { m with stack := x::m.stack, altstack := s }
  | [] => .error .invalidAltstackOperation

/-- Both encodings are checked before the signature is. -/
def checkEncodings (flags : ScriptFlags) (vchSig vchPubKey : valtype) : Except ScriptError Unit := do
  checkSignatureEncoding vchSig flags
  checkPubKeyEncoding vchPubKey flags

def evalCheckSig (isVerify : Bool) (flags : ScriptFlags) (checker : BaseSignatureChecker)
    (m : Machine) : Except ScriptError Machine :=
  match m.stack with
  | vchPubKey::vchSig::s => do
    let scriptCode := m.pbegincodehash.findAndDelete (pushData vchSig)
    checkEncodings flags vchSig vchPubKey
    let fSuccess := checker.checkSig vchSig vchPubKey scriptCode
    let stack ← verifyTop isVerify fSuccess .checkSigVerify s
    .ok { m with stack }
  | _ => .error .invalidStackOperation

/-- Match signatures to keys in order; every round uses up a key. -/
def multiSigLoop (flags : ScriptFlags) (checker : BaseSignatureChecker) (scriptCode : CScript) :
    List valtype → List valtype → Except ScriptError Bool
  | [],_ => .ok true
  | _::_,[] => .ok false
  | sig::sigs,key::keys => do
    checkEncodings flags sig key
    if checker.checkSig sig key scriptCode then
      if sigs.length > keys.length then .ok false
      else multiSigLoop flags checker scriptCode sigs keys
    else if (sig::sigs).length > keys.length then .ok false
    else multiSigLoop flags checker scriptCode (sig::sigs) keys

/-- A count on the stack, between zero and a bound. -/
def readCount (fRequireMinimal : Bool) (most : ℕ) (failure : ScriptError) (x : valtype) :
    Except ScriptError ℕ := do
  let bn ← CScriptNum.ofVch fRequireMinimal nDefaultMaxNumSize x
  let n := bn.getint
  if n < 0 ∨ n > most then .error failure else .ok n.toNat

omit [Crypto] in
theorem readCount_le {fRequireMinimal : Bool} {most n : ℕ} {failure : ScriptError} {x : valtype}
    (h : readCount fRequireMinimal most failure x = .ok n) : n ≤ most := by
  obtain ⟨bn,_,h⟩ := Run.bind_ok.mp h
  dsimp only at h
  split_ifs at h with hn
  cases h
  omega

/-- A counted group of elements and what is below it, which must not be empty. -/
def takeGroup (n : ℕ) (stack : List valtype) :
    Except ScriptError (List valtype × valtype × List valtype) :=
  match stack.drop n with
  | x::s => .ok (stack.take n,x,s)
  | [] => .error .invalidStackOperation

def evalCheckMultiSig (isVerify : Bool) (flags : ScriptFlags) (checker : BaseSignatureChecker)
    (m : Machine) : Except ScriptError Machine :=
  let fRequireMinimal := hasFlag flags SCRIPT_VERIFY_MINIMALDATA
  match m.stack with
  | [] => .error .invalidStackOperation
  | vchKeysCount::stack => do
    let nKeysCount ← readCount fRequireMinimal MAX_PUBKEYS_PER_MULTISIG .pubkeyCount vchKeysCount
    let nOpCount := m.nOpCount + nKeysCount
    if nOpCount > MAX_OPS_PER_SCRIPT then .error .opCount
    else do
      let (keys,vchSigsCount,stack) ← takeGroup nKeysCount stack
      let nSigsCount ← readCount fRequireMinimal nKeysCount .sigCount vchSigsCount
      let (sigs,dummy,stack) ← takeGroup nSigsCount stack
      let scriptCode := sigs.foldl (fun code sig => code.findAndDelete (pushData sig)) m.pbegincodehash
      let fSuccess ← multiSigLoop flags checker scriptCode sigs keys
      if hasFlag flags SCRIPT_VERIFY_NULLDUMMY && dummy.length != 0 then .error .sigNullDummy
      else do
        let stack ← verifyTop isVerify fSuccess .checkMultiSigVerify stack
        .ok { m with stack, nOpCount }

/-- Run a handler that only touches the stack. -/
def onStack (f : List valtype → StackResult) (m : Machine) : Except ScriptError Machine := do
  let stack ← f m.stack
  .ok { m with stack }

/-- The switch of `EvalScript`; `pc` is the position behind the operation. -/
def evalOpcode (flags : ScriptFlags) (checker : BaseSignatureChecker) (opcode : UInt8)
    (pc : CScript) (m : Machine) : Except ScriptError Machine :=
  let fRequireMinimal := hasFlag flags SCRIPT_VERIFY_MINIMALDATA
  if opcode = OP_1NEGATE ∨ (OP_1 ≤ opcode ∧ opcode ≤ OP_16) then
    .ok { m with stack := CScriptNum.serialize ((opcode.toNat : ℤ) - 0x50) :: m.stack }
  else if opcode = OP_NOP then .ok m
  else if opcode = OP_CHECKLOCKTIMEVERIFY then evalCheckLockTimeVerify flags checker m
  else if opcode = OP_CHECKSEQUENCEVERIFY then evalCheckSequenceVerify flags checker m
  else if isUpgradableNop opcode then discourage flags m
  else if opcode = OP_IF then evalIf false m
  else if opcode = OP_NOTIF then evalIf true m
  else if opcode = OP_ELSE then evalElse m
  else if opcode = OP_ENDIF then evalEndif m
  else if opcode = OP_VERIFY then onStack (popTrue .verify) m
  else if opcode = OP_RETURN then .error .opReturn
  else if opcode = OP_TOALTSTACK then evalToAltstack m
  else if opcode = OP_FROMALTSTACK then evalFromAltstack m
  else if opcode = OP_PICK then onStack (evalPickRoll fRequireMinimal false) m
  else if opcode = OP_ROLL then onStack (evalPickRoll fRequireMinimal true) m
  else if opcode = OP_EQUAL then onStack (evalEqual false) m
  else if opcode = OP_EQUALVERIFY then onStack (evalEqual true) m
  else if isNumericOpcode opcode then onStack (evalNumericOp fRequireMinimal opcode) m
  else if opcode = OP_RIPEMD160 then
    onStack (evalHash fun vch => serializeBits 20 (Crypto.ripemd160 vch)) m
  else if opcode = OP_SHA1 then onStack (evalHash fun vch => serializeBits 20 (Crypto.sha1 vch)) m
  else if opcode = OP_SHA256 then
    onStack (evalHash fun vch => serializeBits 32 (Crypto.sha256 vch)) m
  else if opcode = OP_HASH160 then
    onStack (evalHash fun vch => serializeBits 20 (Crypto.hash160 vch)) m
  else if opcode = OP_HASH256 then
    onStack (evalHash fun vch => serializeBits 32 (Crypto.hash256 vch)) m
  else if opcode = OP_CODESEPARATOR then .ok { m with pbegincodehash := pc }
  else if opcode = OP_CHECKSIG then evalCheckSig false flags checker m
  else if opcode = OP_CHECKSIGVERIFY then evalCheckSig true flags checker m
  else if opcode = OP_CHECKMULTISIG then evalCheckMultiSig false flags checker m
  else if opcode = OP_CHECKMULTISIGVERIFY then evalCheckMultiSig true flags checker m
  else onStack (evalStackOp opcode) m

/-- Run an operation, or skip it in a branch that is not taken; conditionals always run. -/
def execOp (flags : ScriptFlags) (checker : BaseSignatureChecker) (op : ScriptOp) (m : Machine) :
    Except ScriptError Machine :=
  if m.fExec && op.opcode ≤ OP_PUSHDATA4 then
    if hasFlag flags SCRIPT_VERIFY_MINIMALDATA && !checkMinimalPush op.vch op.opcode then
      .error .minimalData
    else .ok { m with stack := op.vch :: m.stack }
  else if m.fExec || (OP_IF ≤ op.opcode && op.opcode ≤ OP_ENDIF) then
    evalOpcode flags checker op.opcode op.pc m
  else .ok m

/-- Only operations above `OP_16` count towards the limit. -/
def countOp (opcode : UInt8) (m : Machine) : Except ScriptError Machine :=
  if opcode > OP_16 then
    if m.nOpCount + 1 > MAX_OPS_PER_SCRIPT then .error .opCount
    else .ok { m with nOpCount := m.nOpCount + 1 }
  else .ok m

def MAX_STACK_SIZE : ℕ := 1000

def checkStackSize (m : Machine) : Except ScriptError Machine :=
  if m.stack.length + m.altstack.length > MAX_STACK_SIZE then .error .stackSize else .ok m

omit [Crypto] in
theorem checkStackSize_ok {m m' : Machine} : checkStackSize m = .ok m' ↔
    m.stack.length + m.altstack.length ≤ MAX_STACK_SIZE ∧ m = m' := by
  unfold checkStackSize
  split_ifs with h <;> simp <;> omega

/-- One round of the loop on the operation it has read. -/
def evalStep (flags : ScriptFlags) (checker : BaseSignatureChecker) (op : ScriptOp) (m : Machine) :
    Except ScriptError Machine :=
  if op.vch.length > MAX_SCRIPT_ELEMENT_SIZE then .error .pushSize
  else do
    let m ← countOp op.opcode m
    if isDisabledOpcode op.opcode then .error .disabledOpcode
    else do
      let m ← execOp flags checker op m
      checkStackSize m

/-- The loop; every round consumes a byte, so the script's length is fuel enough. -/
def evalLoop (flags : ScriptFlags) (checker : BaseSignatureChecker) :
    ℕ → CScript → Machine → Except ScriptError Machine
  | 0,_,m => .ok m
  | fuel+1,pc,m =>
    if pc.isEmpty then .ok m
    else
      match getOp pc with
      | none => .error .badOpcode
      | some op => do
        let m ← evalStep flags checker op m
        evalLoop flags checker fuel op.pc m

def MAX_SCRIPT_SIZE : ℕ := 10000

/-- The stack a script leaves when it runs to its end with all conditionals closed. -/
def evalScript (stack : List valtype) (script : CScript) (flags : ScriptFlags)
    (checker : BaseSignatureChecker) : StackResult :=
  if script.length > MAX_SCRIPT_SIZE then .error .scriptSize
  else do
    let m ← evalLoop flags checker script.length script { stack, pbegincodehash := script }
    if m.vfExec.isEmpty then .ok m.stack else .error .unbalancedConditional

end Sidechain
