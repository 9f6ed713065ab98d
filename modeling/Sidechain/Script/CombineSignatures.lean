import Sidechain.Script.Solver
import Mathlib.Data.List.Sort

/-! `CombineSignatures`: the stacks that two signature scripts leave, whether or not they run to their
end, and what is made of them for each standard form. -/
namespace Sidechain
open Run

variable [Crypto]

/-- What a failed operation leaves of the stack. Most check everything before they change it. -/
def failedOpcodeStack (flags : ScriptFlags) (checker : BaseSignatureChecker) (opcode : UInt8)
    (m : Machine) : List valtype :=
  let fRequireMinimal := hasFlag flags SCRIPT_VERIFY_MINIMALDATA
  if opcode = OP_PICK ∨ opcode = OP_ROLL then
    match m.stack with
    | x::y::s =>
      if (CScriptNum.ofVch fRequireMinimal nDefaultMaxNumSize x).isOk then y::s else m.stack
    | _ => m.stack
  else if opcode = OP_EQUALVERIFY then
    match m.stack with
    | _::_::s => vchFalse::s
    | _ => m.stack
  else if opcode = OP_NUMEQUALVERIFY then
    match evalNumericOp fRequireMinimal OP_NUMEQUAL m.stack with
    | .ok s => s
    | .error _ => m.stack
  else if opcode = OP_CHECKSIGVERIFY then
    match evalCheckSig false flags checker m with
    | .ok m' => m'.stack
    | .error _ => m.stack
  else if opcode = OP_CHECKMULTISIG ∨ opcode = OP_CHECKMULTISIGVERIFY then
    match evalCheckMultiSig false (flags &&& ~~~SCRIPT_VERIFY_NULLDUMMY) checker m with
    | .error _ => m.stack
    | .ok m' =>
      -- the dummy is still there when it is checked
      let withDummy := m.stack.drop (m.stack.length - m'.stack.length)
      if hasFlag flags SCRIPT_VERIFY_NULLDUMMY && withDummy.head?.any (·.length != 0) then withDummy
      else m'.stack
  else m.stack

/-- What a round that fails leaves of the stack. -/
def failedStack (flags : ScriptFlags) (checker : BaseSignatureChecker) (op : ScriptOp)
    (m : Machine) : List valtype :=
  if op.vch.length > MAX_SCRIPT_ELEMENT_SIZE then m.stack
  else
    match countOp op.opcode m with
    | .error _ => m.stack
    | .ok m =>
      if isDisabledOpcode op.opcode then m.stack
      else
        match execOp flags checker op m with
        | .ok m => m.stack
        | .error _ => failedOpcodeStack flags checker op.opcode m

def evalLoopLeft (flags : ScriptFlags) (checker : BaseSignatureChecker) :
    ℕ → CScript → Machine → List valtype
  | 0,_,m => m.stack
  | fuel+1,pc,m =>
    if pc.isEmpty then m.stack
    else
      match getOp pc with
      | none => m.stack
      | some op =>
        match evalStep flags checker op m with
        | .error _ => failedStack flags checker op m
        | .ok m => evalLoopLeft flags checker fuel op.pc m

/-- The stack after `EvalScript`, whatever it returns. -/
def evalScriptLeft (stack : List valtype) (script : CScript) (flags : ScriptFlags)
    (checker : BaseSignatureChecker) : List valtype :=
  if script.length > MAX_SCRIPT_SIZE then stack
  else evalLoopLeft flags checker script.length script { stack, pbegincodehash := script }

theorem evalLoopLeft_of_ok {flags : ScriptFlags} {checker : BaseSignatureChecker} {fuel : ℕ}
    {pc : CScript} {m m' : Machine} (h : evalLoop flags checker fuel pc m = .ok m') :
    evalLoopLeft flags checker fuel pc m = m'.stack := by
  induction fuel generalizing pc m with
  | zero =>
    cases h
    rfl
  | succ fuel ih =>
    unfold evalLoop at h
    unfold evalLoopLeft
    split_ifs at h ⊢ with hpc
    · cases h
      rfl
    · cases hop : getOp pc with
      | none =>
        rw [hop] at h
        cases h
      | some op =>
        rw [hop] at h
        obtain ⟨m₁,hstep,hloop⟩ := bind_ok.mp h
        dsimp only
        rw [hstep]
        exact ih hloop

theorem evalScriptLeft_of_ok {stack stack' : List valtype} {script : CScript} {flags : ScriptFlags}
    {checker : BaseSignatureChecker} (h : evalScript stack script flags checker = .ok stack') :
    evalScriptLeft stack script flags checker = stack' := by
  unfold evalScript at h
  unfold evalScriptLeft
  split_ifs at h ⊢ with hsize
  obtain ⟨m,hloop,hend⟩ := bind_ok.mp h
  split_ifs at hend
  cases hend
  exact evalLoopLeft_of_ok hloop

def pushAll (values : List valtype) : Outcome CScript := values.foldlM pushVector []

/-- The first key without a signature that this one verifies for gets it. -/
def matchSig (checker : BaseSignatureChecker) (scriptPubKey : CScript) (sig : valtype) :
    List valtype → (valtype → Option valtype) → valtype → Option valtype
  | [],sigs => sigs
  | pubkey::pubkeys,sigs =>
    if (sigs pubkey).isSome then matchSig checker scriptPubKey sig pubkeys sigs
    else if checker.checkSig sig pubkey scriptPubKey then Function.update sigs pubkey (some sig)
    else matchSig checker scriptPubKey sig pubkeys sigs

/-- The script with the signatures of the first keys that have one, and how many they are. -/
def pushSigs (nSigsRequired : ℕ) (sigs : valtype → Option valtype) :
    List valtype → ℕ → CScript → Outcome (ℕ × CScript)
  | [],nSigsHave,result => .ok (nSigsHave,result)
  | pubkey::pubkeys,nSigsHave,result =>
    if nSigsHave < nSigsRequired then
      match sigs pubkey with
      | some sig => do
        let result ← pushVector result sig
        pushSigs nSigsRequired sigs pubkeys (nSigsHave + 1) result
      | none => pushSigs nSigsRequired sigs pubkeys nSigsHave result
    else .ok (nSigsHave,result)

/-- The signatures as a set is gone through, in lexicographical order. -/
def allSigs (sigs1 sigs2 : List valtype) : List valtype :=
  ((sigs1 ++ sigs2).filter (· ≠ [])).dedup.insertionSort (· ≤ ·)

def combineMultisig (scriptPubKey : CScript) (checker : BaseSignatureChecker)
    (vSolutions sigs1 sigs2 : List valtype) : Outcome CScript := do
  require (vSolutions.length > 1) (.error (.assertion "vSolutions.size() > 1"))
  let nSigsRequired ← firstByte vSolutions.head?
  let pubkeys := (vSolutions.drop 1).take (vSolutions.length - 2)
  let sigs := (allSigs sigs1 sigs2).foldl
    (fun sigs sig => matchSig checker scriptPubKey sig pubkeys sigs) fun _ => none
  let result ← insertEnd [] [OP_0]
  let (nSigsHave,result) ← pushSigs nSigsRequired.toNat sigs pubkeys 0 result
  (List.replicate (nSigsRequired.toNat - nSigsHave) [OP_0]).foldlM insertEnd result

/-- The stacks have their bottom first; a nested script hash takes an element off both. -/
def combineStacks (checker : BaseSignatureChecker) :
    ℕ → CScript → TxnOutType → List valtype → List valtype → List valtype → Outcome CScript
  | fuel,scriptPubKey,txType,vSolutions,sigs1,sigs2 =>
    match txType with
    | .nonstandard | .nullData =>
      -- don't know anything about this, assume bigger one is correct
      if sigs1.length ≥ sigs2.length then pushAll sigs1 else pushAll sigs2
    | .pubkey | .pubkeyhash =>
      if sigs1 = [] ∨ sigs1.head? = some [] then pushAll sigs2 else pushAll sigs1
    | .scripthash =>
      match sigs1.getLast?,sigs2.getLast?,fuel with
      | none,_,_ | some [],_,_ => pushAll sigs2
      | _,none,_ | _,some [],_ => pushAll sigs1
      | some _,some _,0 => .error (.undefined "no fuel")
      | some spk,some _,fuel+1 => do
        let solved ← solver spk
        let result ← combineStacks checker fuel spk solved.typeRet solved.vSolutionsRet
          sigs1.dropLast sigs2.dropLast
        pushVector result spk
    | .multisig => combineMultisig scriptPubKey checker vSolutions sigs1 sigs2

def combineSignatures (scriptPubKey : CScript) (checker : BaseSignatureChecker)
    (scriptSig1 scriptSig2 : CScript) : Outcome CScript := do
  let solved ← solver scriptPubKey
  let stack1 := evalScriptLeft [] scriptSig1 SCRIPT_VERIFY_STRICTENC {}
  let stack2 := evalScriptLeft [] scriptSig2 SCRIPT_VERIFY_STRICTENC {}
  combineStacks checker stack1.length scriptPubKey solved.typeRet solved.vSolutionsRet
    stack1.reverse stack2.reverse

end Sidechain
