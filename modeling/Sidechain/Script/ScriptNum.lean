import Sidechain.Script.Script

/-! What the interpreter needs besides the stack machine itself: verification flags, script
errors, numbers on the stack, and the encoding checks of signatures, keys and pushes. -/
namespace Sidechain

/-- A set of script verification flags, one bit each. -/
abbrev ScriptFlags := UInt32

def SCRIPT_VERIFY_NONE : ScriptFlags := 0
def SCRIPT_VERIFY_P2SH : ScriptFlags := 1
def SCRIPT_VERIFY_STRICTENC : ScriptFlags := 2
def SCRIPT_VERIFY_DERSIG : ScriptFlags := 4
def SCRIPT_VERIFY_LOW_S : ScriptFlags := 8
def SCRIPT_VERIFY_NULLDUMMY : ScriptFlags := 16
def SCRIPT_VERIFY_SIGPUSHONLY : ScriptFlags := 32
def SCRIPT_VERIFY_MINIMALDATA : ScriptFlags := 64
def SCRIPT_VERIFY_DISCOURAGE_UPGRADABLE_NOPS : ScriptFlags := 128
def SCRIPT_VERIFY_CLEANSTACK : ScriptFlags := 256
def SCRIPT_VERIFY_CHECKLOCKTIMEVERIFY : ScriptFlags := 512
def SCRIPT_VERIFY_CHECKSEQUENCEVERIFY : ScriptFlags := 1024

/-- Some flag of `mask` is set. -/
def hasFlag (flags mask : ScriptFlags) : Bool := flags &&& mask != 0

inductive ScriptError where
  | unknownError
  | evalFalse
  | opReturn
  | scriptSize
  | pushSize
  | opCount
  | stackSize
  | sigCount
  | pubkeyCount
  | verify
  | equalVerify
  | checkMultiSigVerify
  | checkSigVerify
  | numEqualVerify
  | badOpcode
  | disabledOpcode
  | invalidStackOperation
  | invalidAltstackOperation
  | unbalancedConditional
  | negativeLocktime
  | unsatisfiedLocktime
  | sigHashtype
  | sigDer
  | minimalData
  | sigPushOnly
  | sigHighS
  | sigNullDummy
  | pubkeyType
  | cleanStack
  | discourageUpgradableNops
  deriving DecidableEq, Repr

/-- `ScriptErrorString`. -/
def scriptErrorString : ScriptError → String
  | .unknownError => "unknown error"
  | .evalFalse => "Script evaluated without error but finished with a false/empty top stack element"
  | .opReturn => "OP_RETURN was encountered"
  | .scriptSize => "Script is too big"
  | .pushSize => "Push value size limit exceeded"
  | .opCount => "Operation limit exceeded"
  | .stackSize => "Stack size limit exceeded"
  | .sigCount => "Signature count negative or greater than pubkey count"
  | .pubkeyCount => "Pubkey count negative or limit exceeded"
  | .verify => "Script failed an OP_VERIFY operation"
  | .equalVerify => "Script failed an OP_EQUALVERIFY operation"
  | .checkMultiSigVerify => "Script failed an OP_CHECKMULTISIGVERIFY operation"
  | .checkSigVerify => "Script failed an OP_CHECKSIGVERIFY operation"
  | .numEqualVerify => "Script failed an OP_NUMEQUALVERIFY operation"
  | .badOpcode => "Opcode missing or not understood"
  | .disabledOpcode => "Attempted to use a disabled opcode"
  | .invalidStackOperation => "Operation not valid with the current stack size"
  | .invalidAltstackOperation => "Operation not valid with the current altstack size"
  | .unbalancedConditional => "Invalid OP_IF construction"
  | .negativeLocktime => "Negative locktime"
  | .unsatisfiedLocktime => "Locktime requirement not satisfied"
  | .sigHashtype => "Signature hash type missing or not understood"
  | .sigDer => "Non-canonical DER signature"
  | .minimalData => "Data push larger than necessary"
  | .sigPushOnly => "Only non-push operators allowed in signatures"
  | .sigHighS => "Non-canonical signature: S value is unnecessarily high"
  | .sigNullDummy => "Dummy CHECKMULTISIG argument must be zero"
  | .pubkeyType => "Public key is neither compressed or uncompressed"
  | .cleanStack => "unknown error"
  | .discourageUpgradableNops => "NOPx reserved for soft-fork upgrades"

abbrev valtype := Bytes

def vchFalse : valtype := []
def vchTrue : valtype := [1]

def vchBool (fValue : Bool) : valtype := if fValue then vchTrue else vchFalse

/-- Any nonzero byte makes a value true, except a final `0x80`, which is negative zero. -/
def castToBool : valtype → Bool
  | [] => false
  | [b] => b != 0 && b != 0x80
  | b :: vch => b != 0 || castToBool vch

theorem castToBool_append_singleton (vch : valtype) {b : UInt8} (h0 : b ≠ 0) (h80 : b ≠ 0x80) :
    castToBool (vch ++ [b]) = true := by
  induction vch with
  | nil => simp [castToBool,h0,h80]
  | cons a vch ih =>
    cases vch with
    | nil => simp [castToBool,h0,h80]
    | cons c vch => simp only [List.cons_append,castToBool] at ih ⊢; simp [ih]

/-- Numbers have at most five bytes when they are read, so int64 arithmetic on them is exact. -/
abbrev CScriptNum := ℤ

def CScriptNum.setVch (vch : valtype) : CScriptNum :=
  match vch.getLast? with
  | none => 0
  | some msb =>
    if msb &&& 0x80 ≠ 0 then -(ofLeBytes (vch.dropLast ++ [msb &&& 0x7f]) : ℤ)
    else ofLeBytes vch

/-- The shortest encoding: the most significant byte is nonzero apart from its sign bit,
unless the byte below it needs the sign bit's place. -/
def CScriptNum.isMinimal (vch : valtype) : Bool :=
  match vch.reverse with
  | [] => true
  | [msb] => msb &&& 0x7f != 0
  | msb :: next :: _ => msb &&& 0x7f != 0 || next &&& 0x80 != 0

/-- The constructor from bytes throws; the interpreter reports any exception as unknown. -/
def CScriptNum.ofVch (fRequireMinimal : Bool) (nMaxNumSize : ℕ) (vch : valtype) :
    Except ScriptError CScriptNum :=
  if vch.length > nMaxNumSize then .error .unknownError
  else if fRequireMinimal && !CScriptNum.isMinimal vch then .error .unknownError
  else .ok (CScriptNum.setVch vch)

def nDefaultMaxNumSize : ℕ := 4

/-- The bytes of an absolute value, least significant first, without leading zeros. -/
def absBytes : ℕ → ℕ → Bytes
  | 0,_ => []
  | fuel+1,n => if n = 0 then [] else UInt8.ofNat (n % 256) :: absBytes fuel (n / 256)

/-- An int64 has at most eight bytes. -/
def CScriptNum.serialize (value : CScriptNum) : valtype :=
  let result := absBytes 8 value.natAbs
  match result.getLast? with
  | none => []
  | some msb =>
    if msb &&& 0x80 ≠ 0 then result ++ [if value < 0 then 0x80 else 0]
    else if value < 0 then result.dropLast ++ [msb ||| 0x80]
    else result

example : CScriptNum.serialize (-255) = [0xff,0x80] := by decide

/-- A number in a script under construction. -/
def pushInt64 (n : ℤ) : CScript :=
  if n = -1 ∨ (1 ≤ n ∧ n ≤ 16) then [UInt8.ofNat (n + (OP_1.toNat - 1)).toNat]
  else if n = 0 then [OP_0]
  else pushData (CScriptNum.serialize n)

def SIGHASH_ALL : UInt8 := 1
def SIGHASH_NONE : UInt8 := 2
def SIGHASH_SINGLE : UInt8 := 3
def SIGHASH_ANYONECANPAY : UInt8 := 0x80

def isCompressedOrUncompressedPubKey (vchPubKey : valtype) : Bool :=
  if vchPubKey.length < 33 then false
  else if vchPubKey[0]? = some 0x04 then vchPubKey.length == 65
  else if vchPubKey[0]? = some 0x02 ∨ vchPubKey[0]? = some 0x03 then vchPubKey.length == 33
  else false

/-- The byte at a position the caller has checked to be inside. -/
def byteAt (vch : Bytes) (i : ℕ) : UInt8 := vch.getD i 0

/-- Strict DER with a hash type byte behind it. -/
def isValidSignatureEncoding (sig : valtype) : Bool :=
  let lenR := (byteAt sig 3).toNat
  let lenS := (byteAt sig (5 + lenR)).toNat
  if sig.length < 9 then false
  else if sig.length > 73 then false
  else if byteAt sig 0 ≠ 0x30 then false
  else if (byteAt sig 1).toNat ≠ sig.length - 3 then false
  else if 5 + lenR ≥ sig.length then false
  else if lenR + lenS + 7 ≠ sig.length then false
  else if byteAt sig 2 ≠ 0x02 then false
  else if lenR = 0 then false
  else if byteAt sig 4 &&& 0x80 ≠ 0 then false
  else if lenR > 1 ∧ byteAt sig 4 = 0 ∧ byteAt sig 5 &&& 0x80 = 0 then false
  else if byteAt sig (lenR + 4) ≠ 0x02 then false
  else if lenS = 0 then false
  else if byteAt sig (lenR + 6) &&& 0x80 ≠ 0 then false
  else if lenS > 1 ∧ byteAt sig (lenR + 6) = 0 ∧ byteAt sig (lenR + 7) &&& 0x80 = 0 then false
  else true

def isDefinedHashtypeSignature (vchSig : valtype) : Bool :=
  match vchSig.getLast? with
  | none => false
  | some last =>
    let nHashType := last &&& 0x7f
    !(nHashType < SIGHASH_ALL || nHashType > SIGHASH_SINGLE)

/-- The shortest push operator for the data was used. -/
def checkMinimalPush (data : valtype) (opcode : UInt8) : Bool :=
  let first := byteAt data 0
  if data.length = 0 then opcode == OP_0
  else if data.length = 1 ∧ 1 ≤ first ∧ first ≤ 16 then opcode == OP_1 + (first - 1)
  else if data.length = 1 ∧ first = 0x81 then opcode == OP_1NEGATE
  else if data.length ≤ 75 then opcode.toNat == data.length
  else if data.length ≤ 255 then opcode == OP_PUSHDATA1
  else if data.length ≤ 65535 then opcode == OP_PUSHDATA2
  else true

end Sidechain
