import Sidechain.Script.ScriptBuild
import Sidechain.Script.Verify

/-! The standard forms of a script: matching it against templates, reading the destination out of it,
and building it from a destination or from keys. -/
namespace Sidechain
open Run

def OP_SMALLINTEGER : UInt8 := 0xfa
def OP_PUBKEYS : UInt8 := 0xfb
def OP_PUBKEYHASH : UInt8 := 0xfd
def OP_PUBKEY : UInt8 := 0xfe

inductive TxnOutType where
  | nonstandard
  | pubkey
  | pubkeyhash
  | scripthash
  | multisig
  | nullData
  deriving DecidableEq, Repr

/-- `mTemplates`, in the order of its keys. -/
def mTemplates : List (TxnOutType × CScript) :=
  [(.pubkey,[OP_PUBKEY,OP_CHECKSIG]),
    (.pubkeyhash,[OP_DUP,OP_HASH160,OP_PUBKEYHASH,OP_EQUALVERIFY,OP_CHECKSIG]),
    (.multisig,[OP_SMALLINTEGER,OP_PUBKEYS,OP_SMALLINTEGER,OP_CHECKMULTISIG])]

/-- Where the script is, the operation read last and the solutions so far. -/
structure PubKeysScan where
  pc1 : ℕ
  op1 : UInt8 × Bytes
  vSolutions : List valtype

/-- The loop of `OP_PUBKEYS`: an operation that cannot be read is left invalid and empty. A round
reads at least a byte, so that fuel for each byte is enough. -/
def matchPubKeys (script1 : CScript) : ℕ → PubKeysScan → Outcome PubKeysScan
  | 0,_ => .error (.undefined "no fuel")
  | fuel+1,s =>
    if 33 ≤ s.op1.2.length ∧ s.op1.2.length ≤ 65 then do
      let vSolutions := s.vSolutions ++ [s.op1.2]
      match ← getOp2 script1 s.pc1 with
      | (pc1,none) => .ok ⟨pc1,(OP_INVALIDOPCODE,[]),vSolutions⟩
      | (pc1,some op1) => matchPubKeys script1 fuel ⟨pc1,op1,vSolutions⟩
    else .ok s

/-- An operation against one of the template: the solutions with it, if they match. -/
def matchOp (op1 op2 : UInt8 × Bytes) (vSolutions : List valtype) : Option (List valtype) :=
  if op2.1 = OP_PUBKEY then
    if op1.2.length < 33 ∨ op1.2.length > 65 then none else some (vSolutions ++ [op1.2])
  else if op2.1 = OP_PUBKEYHASH then
    if op1.2.length ≠ 20 then none else some (vSolutions ++ [op1.2])
  else if op2.1 = OP_SMALLINTEGER then
    if op1.1 = OP_0 ∨ (OP_1 ≤ op1.1 ∧ op1.1 ≤ OP_16) then
      some (vSolutions ++ [[UInt8.ofNat (decodeOP_N op1.1)]])
    else none
  else if op1.1 ≠ op2.1 ∨ op1.2 ≠ op2.2 then none
  else some vSolutions

/-- A round of the comparison: the next positions and the solutions, unless it breaks. -/
def matchRound (script1 script2 : CScript) (pc1 pc2 : ℕ) (vSolutions : List valtype) :
    Outcome (Option (ℕ × ℕ × List valtype)) := do
  match ← getOp2 script1 pc1 with
  | (_,none) => .ok none
  | (pc1,some op1) =>
    match ← getOp2 script2 pc2 with
    | (_,none) => .ok none
    | (pc2,some op2) =>
      if op2.1 = OP_PUBKEYS then do
        let s ← matchPubKeys script1 (script1.length + 1) ⟨pc1,op1,vSolutions⟩
        match ← getOp2 script2 pc2 with
        | (_,none) => .ok none
        | (pc2,some op2) =>
          .ok ((matchOp s.op1 op2 s.vSolutions).map fun vSolutions => (s.pc1,pc2,vSolutions))
      else .ok ((matchOp op1 op2 vSolutions).map fun vSolutions => (pc1,pc2,vSolutions))

/-- The solutions, if both scripts end together. A round reads at least a byte of the template. -/
def matchTemplate (script1 script2 : CScript) :
    ℕ → ℕ → ℕ → List valtype → Outcome (Option (List valtype))
  | 0,_,_,_ => .error (.undefined "no fuel")
  | fuel+1,pc1,pc2,vSolutions =>
    if pc1 = script1.length ∧ pc2 = script2.length then .ok (some vSolutions)
    else do
      match ← matchRound script1 script2 pc1 pc2 vSolutions with
      | none => .ok none
      | some (pc1,pc2,vSolutions) => matchTemplate script1 script2 fuel pc1 pc2 vSolutions

/-- What `Solver` returns, and what it leaves in its two arguments. -/
structure Solved where
  ret : Bool
  typeRet : TxnOutType
  vSolutionsRet : List valtype
  deriving DecidableEq, Repr

/-- `v.front()[0]` or `v.back()[0]`. -/
def firstByte : Option valtype → Outcome UInt8
  | some (b::_) => .ok b
  | _ => .error (.undefined "front()")

/-- A template that matches is returned, with the additional checks of a multisignature. -/
def foundTemplate (typeRet : TxnOutType) (vSolutions : List valtype) : Outcome Solved :=
  if typeRet = .multisig then do
    let m ← firstByte vSolutions.head?
    let n ← firstByte vSolutions.getLast?
    if m < 1 ∨ n < 1 ∨ m > n ∨ (vSolutions.length : ℤ) - 2 ≠ n.toNat then
      .ok ⟨false,typeRet,vSolutions⟩
    else .ok ⟨true,typeRet,vSolutions⟩
  else .ok ⟨true,typeRet,vSolutions⟩

def scanTemplates (script1 : CScript) : List (TxnOutType × CScript) → Outcome Solved
  | [] => .ok ⟨false,.nonstandard,[]⟩
  | tplate::rest => do
    match ← matchTemplate script1 tplate.2 (tplate.2.length + 1) 0 0 [] with
    | some vSolutions => foundTemplate tplate.1 vSolutions
    | none => scanTemplates script1 rest

/-- `IsPushOnly` from a position on. -/
def isPushOnlyAt (script : CScript) : ℕ → ℕ → Outcome Bool
  | 0,_ => .error (.undefined "no fuel")
  | fuel+1,pc =>
    if pc < script.length then do
      match ← getOp2 script pc with
      | (_,none) => .ok false
      | (pc,some op) => if op.1 > OP_16 then .ok false else isPushOnlyAt script fuel pc
    else .ok true

def isNullData (scriptPubKey : CScript) : Outcome Bool :=
  if 1 ≤ scriptPubKey.length then do
    let first ← readAt scriptPubKey 0 1
    if first = [OP_RETURN] then isPushOnlyAt scriptPubKey (scriptPubKey.length + 1) 1
    else .ok false
  else .ok false

def solver (scriptPubKey : CScript) : Outcome Solved :=
  if scriptPubKey.isPayToScriptHash then do
    let hashBytes ← readAt scriptPubKey 2 20
    .ok ⟨true,.scripthash,[hashBytes]⟩
  else do
    if ← isNullData scriptPubKey then .ok ⟨true,.nullData,[]⟩
    else scanTemplates scriptPubKey mTemplates

inductive CTxDestination where
  | noDestination
  | keyID (id : Uint160)
  | scriptID (id : Uint160)
  deriving DecidableEq, Repr

/-- `uint160(vch)`. -/
def uint160OfVch (vch : valtype) : Outcome Uint160 := do
  require (vch.length = 20) (.error (.assertion "vch.size() == sizeof(data)"))
  .ok (BitVec.ofNat 160 (ofLeBytes vch))

def solutionAt (vSolutions : List valtype) (i : ℕ) : Outcome valtype :=
  match vSolutions[i]? with
  | some vch => .ok vch
  | none => .error (.undefined "vSolutions[i]")

def extractDestination [Crypto] (scriptPubKey : CScript) : Outcome (Option CTxDestination) := do
  let solved ← solver scriptPubKey
  if !solved.ret then .ok none
  else if solved.typeRet = .pubkey then do
    let pubKey ← solutionAt solved.vSolutionsRet 0
    if !CPubKey.isValid pubKey then .ok none
    else .ok (some (.keyID (Crypto.hash160 pubKey)))
  else if solved.typeRet = .pubkeyhash then do
    let hash ← solutionAt solved.vSolutionsRet 0
    let id ← uint160OfVch hash
    .ok (some (.keyID id))
  else if solved.typeRet = .scripthash then do
    let hash ← solutionAt solved.vSolutionsRet 0
    let id ← uint160OfVch hash
    .ok (some (.scriptID id))
  else .ok none

def getScriptForDestination : CTxDestination → Outcome CScript
  | .noDestination => .ok []
  | .keyID keyID => do
    let script ← insertEnd [] [OP_DUP]
    let script ← insertEnd script [OP_HASH160]
    let script ← pushVector script (leBytes 20 keyID.toNat)
    let script ← insertEnd script [OP_EQUALVERIFY]
    insertEnd script [OP_CHECKSIG]
  | .scriptID scriptID => do
    let script ← insertEnd [] [OP_HASH160]
    let script ← pushVector script (leBytes 20 scriptID.toNat)
    insertEnd script [OP_EQUAL]

def encodeOP_N (n : ℤ) : Outcome UInt8 := do
  require (0 ≤ n ∧ n ≤ 16) (.error (.assertion "n >= 0 && n <= 16"))
  .ok (if n = 0 then OP_0 else UInt8.ofNat (OP_1.toNat + n - 1).toNat)

/-- Keys are given by their bytes; their number is converted to an int. -/
def getScriptForMultisig (nRequired : ℤ) (keys : List Bytes) : Outcome CScript := do
  let script ← insertEnd [] [← encodeOP_N nRequired]
  let script ← keys.foldlM pushVector script
  let script ← insertEnd script [← encodeOP_N (Int.bmod keys.length (2^32))]
  insertEnd script [OP_CHECKMULTISIG]

end Sidechain
