import Sidechain.Script.Interpreter

/-! Signature hashes, the checker that binds a script to an input of a transaction, and
`VerifyScript`. -/
namespace Sidechain

/-- Where a failed `GetOp2` leaves its iterator: behind the opcode and the length bytes. -/
def failedPc : CScript → CScript
  | [] => []
  | opcode :: pc =>
    let width := if opcode < OP_PUSHDATA1 then 0 else if opcode = OP_PUSHDATA1 then 1
      else if opcode = OP_PUSHDATA2 then 2 else 4
    if pc.length < width then pc else pc.drop width

/-- The bytes `SerializeScriptCode` writes: every operation that is read but
`OP_CODESEPARATOR`, and what a failed read has passed over. -/
def scriptCodeBytes : ℕ → CScript → Bytes
  | 0,_ => []
  | fuel+1,it =>
    match getOp it with
    | none => it.take (it.length - (failedPc it).length)
    | some op =>
      (if op.opcode = OP_CODESEPARATOR then [] else it.take (it.length - op.pc.length)) ++
        scriptCodeBytes fuel op.pc

def codeSeparators : ℕ → CScript → ℕ
  | 0,_ => 0
  | fuel+1,it =>
    match getOp it with
    | none => 0
    | some op => (if op.opcode = OP_CODESEPARATOR then 1 else 0) + codeSeparators fuel op.pc

def serializeScriptCode (scriptCode : CScript) : Bytes :=
  writeCompactSize (scriptCode.length - codeSeparators scriptCode.length scriptCode) ++
    scriptCodeBytes (scriptCode.length + 1) scriptCode

/-- `CTransactionSignatureSerializer`. -/
structure CTransactionSignatureSerializer where
  txTo : CTransaction
  scriptCode : CScript
  nIn : ℕ
  fAnyoneCanPay : Bool
  fHashSingle : Bool
  fHashNone : Bool

def CTransactionSignatureSerializer.of (txTo : CTransaction) (scriptCode : CScript) (nIn : ℕ)
    (nHashType : UInt32) : CTransactionSignatureSerializer where
  txTo := txTo
  scriptCode := scriptCode
  nIn := nIn
  fAnyoneCanPay := nHashType &&& SIGHASH_ANYONECANPAY.toUInt32 != 0
  fHashSingle := nHashType &&& 0x1f == SIGHASH_SINGLE.toUInt32
  fHashNone := nHashType &&& 0x1f == SIGHASH_NONE.toUInt32

namespace CTransactionSignatureSerializer

def serializeInput (s : CTransactionSignatureSerializer) (nInput : ℕ) : Bytes :=
  let nInput := if s.fAnyoneCanPay then s.nIn else nInput
  match s.txTo.vin[nInput]? with
  | none => []
  | some txin =>
    txin.prevout.serialize ++
      ((if nInput ≠ s.nIn then serializeBlob [] else serializeScriptCode s.scriptCode) ++
        (if nInput ≠ s.nIn ∧ (s.fHashSingle ∨ s.fHashNone) then leBytes 4 0
          else serializeBits 4 txin.nSequence.toBitVec))

def serializeOutput (s : CTransactionSignatureSerializer) (nOutput : ℕ) : Bytes :=
  if s.fHashSingle ∧ nOutput ≠ s.nIn then CTxOut.null.serialize
  else
    match s.txTo.vout[nOutput]? with
    | none => []
    | some txout => txout.serialize

def serialize (s : CTransactionSignatureSerializer) : Bytes :=
  let nInputs := if s.fAnyoneCanPay then 1 else s.txTo.vin.length
  let nOutputs := if s.fHashNone then 0 else if s.fHashSingle then s.nIn + 1 else s.txTo.vout.length
  serializeBits 4 s.txTo.nVersion.toBitVec ++
    (writeCompactSize nInputs ++ ((List.range nInputs).flatMap s.serializeInput ++
      (writeCompactSize nOutputs ++ ((List.range nOutputs).flatMap s.serializeOutput ++
        serializeBits 4 s.txTo.nLockTime.toBitVec))))

end CTransactionSignatureSerializer

variable [Crypto]

/-- Inputs and outputs out of range hash to one. -/
def signatureHash (scriptCode : CScript) (txTo : CTransaction) (nIn : ℕ) (nHashType : UInt32) :
    Uint256 :=
  if nIn ≥ txTo.vin.length then 1
  else if nHashType &&& 0x1f = SIGHASH_SINGLE.toUInt32 ∧ nIn ≥ txTo.vout.length then 1
  else
    let txTmp := CTransactionSignatureSerializer.of txTo scriptCode nIn nHashType
    Crypto.hash256 (txTmp.serialize ++ serializeBits 4 nHashType.toBitVec)

/-- The length of a public key with a given first byte. -/
def CPubKey.getLen (chHeader : UInt8) : ℕ :=
  if chHeader = 2 ∨ chHeader = 3 then 33
  else if chHeader = 4 ∨ chHeader = 6 ∨ chHeader = 7 then 65
  else 0

def CPubKey.isValid (vchPubKey : valtype) : Bool :=
  match vchPubKey with
  | [] => false
  | chHeader :: _ => CPubKey.getLen chHeader != 0 && CPubKey.getLen chHeader == vchPubKey.length

def LOCKTIME_THRESHOLD : ℕ := 500000000

/-- Two lock times are compared only when both are heights or both are times. -/
def sameLockKind (threshold : ℕ) (a b : ℤ) : Bool :=
  decide (a < threshold ∧ b < threshold) || decide (a ≥ threshold ∧ b ≥ threshold)

/-- `TransactionSignatureChecker` for an input of the transaction. -/
def transactionSignatureChecker (txTo : CTransaction) (nIn : ℕ) (txin : CTxIn) :
    BaseSignatureChecker where
  checkSig vchSigIn vchPubKey scriptCode :=
    if !CPubKey.isValid vchPubKey then false
    else
      match vchSigIn.getLast? with
      | none => false
      | some nHashType =>
        Crypto.verify vchPubKey (signatureHash scriptCode txTo nIn nHashType.toUInt32)
          vchSigIn.dropLast
  checkLockTime nLockTime :=
    sameLockKind LOCKTIME_THRESHOLD txTo.nLockTime.toNat nLockTime &&
      decide (nLockTime ≤ txTo.nLockTime.toNat) && txin.nSequence != SEQUENCE_FINAL
  checkSequence nSequence :=
    let nLockTimeMask := SEQUENCE_LOCKTIME_TYPE_FLAG ||| SEQUENCE_LOCKTIME_MASK
    let txToSequence := txin.nSequence.toNat
    let txToSequenceMasked := txToSequence &&& nLockTimeMask
    let nSequenceMasked := nSequence.toNat &&& nLockTimeMask
    decide (2 ≤ txTo.nVersion.toBitVec.toNat) &&
      txToSequence &&& SEQUENCE_LOCKTIME_DISABLE_FLAG == 0 &&
      sameLockKind SEQUENCE_LOCKTIME_TYPE_FLAG txToSequenceMasked nSequenceMasked &&
      decide (nSequenceMasked ≤ txToSequenceMasked)

/-- The top of the stack exists and is true. -/
def topIsTrue : List valtype → Bool
  | [] => false
  | x::_ => castToBool x

/-- A script's answer is the stack it leaves with a true top. -/
def evalTrue (stack : List valtype) (script : CScript) (flags : ScriptFlags)
    (checker : BaseSignatureChecker) : StackResult := do
  let stack ← evalScript stack script flags checker
  if topIsTrue stack then .ok stack else .error .evalFalse

/-- The extra evaluation of a pay-to-script-hash spend, on the stack `scriptSig` left. -/
def evalRedeemScript (stackCopy : List valtype) (scriptSig : CScript) (flags : ScriptFlags)
    (checker : BaseSignatureChecker) : Outcome StackResult :=
  if !scriptSig.isPushOnly then .ok (.error .sigPushOnly)
  else
    match stackCopy with
    | [] => .error (.assertion "!stack.empty()")
    | pubKey2::stack => .ok (evalTrue stack pubKey2 flags checker)

/-- The CLEANSTACK check, which asserts that P2SH evaluation is on. -/
def checkCleanStack (stack : List valtype) (flags : ScriptFlags) :
    Outcome (Except ScriptError Unit) :=
  if !hasFlag flags SCRIPT_VERIFY_CLEANSTACK then .ok (.ok ())
  else if !hasFlag flags SCRIPT_VERIFY_P2SH then
    .error (.assertion "(flags & SCRIPT_VERIFY_P2SH) != 0")
  else if stack.length ≠ 1 then .ok (.error .cleanStack)
  else .ok (.ok ())

/-- The stack after all evaluations a verification makes. -/
def verifyStack (scriptSig scriptPubKey : CScript) (flags : ScriptFlags)
    (checker : BaseSignatureChecker) : Outcome StackResult :=
  match evalScript [] scriptSig flags checker with
  | .error e => .ok (.error e)
  | .ok stackCopy =>
    match evalTrue stackCopy scriptPubKey flags checker with
    | .error e => .ok (.error e)
    | .ok stack =>
      if hasFlag flags SCRIPT_VERIFY_P2SH && scriptPubKey.isPayToScriptHash then
        evalRedeemScript stackCopy scriptSig flags checker
      else .ok (.ok stack)

/-- `.ok (.ok ())` is the answer true, `.ok (.error e)` is false with the error `e`. -/
def verifyScript (scriptSig scriptPubKey : CScript) (flags : ScriptFlags)
    (checker : BaseSignatureChecker) : Outcome (Except ScriptError Unit) :=
  if hasFlag flags SCRIPT_VERIFY_SIGPUSHONLY && !scriptSig.isPushOnly then
    .ok (.error .sigPushOnly)
  else
    match verifyStack scriptSig scriptPubKey flags checker with
    | .error h => .error h
    | .ok (.error e) => .ok (.error e)
    | .ok (.ok stack) => checkCleanStack stack flags

/-- The answer of `VerifyScript` is true. -/
def Verifies (scriptSig scriptPubKey : CScript) (flags : ScriptFlags)
    (checker : BaseSignatureChecker) : Prop :=
  verifyScript scriptSig scriptPubKey flags checker = .ok (.ok ())

/-- A script that fails on the stack of `scriptSig` cannot be verified. -/
theorem verifyScript_of_evalTrue_error {scriptSig scriptPubKey : CScript} {flags : ScriptFlags}
    {checker : BaseSignatureChecker}
    (h : ∀ stack, ∃ e, evalTrue stack scriptPubKey flags checker = .error e) :
    ∃ e, verifyScript scriptSig scriptPubKey flags checker = .ok (.error e) := by
  unfold verifyScript
  split_ifs
  · exact ⟨_,rfl⟩
  · unfold verifyStack
    cases evalScript [] scriptSig flags checker with
    | error e => exact ⟨e,rfl⟩
    | ok stackCopy =>
      obtain ⟨e,he⟩ := h stackCopy
      simp only [he]
      exact ⟨e,rfl⟩

end Sidechain
