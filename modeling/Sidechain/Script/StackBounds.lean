import Sidechain.Script.EvalRounds
import Sidechain.Script.SoftFork

/-! The sizes of the stacks and of their elements in every round of `EvalScript`, and the
assertions of `VerifyScript`. -/
namespace Sidechain
open Guarded Run

def AllSmall (stack : List valtype) : Prop := ∀ x ∈ stack, x.length ≤ MAX_SCRIPT_ELEMENT_SIZE

theorem absBytes_length (fuel n : ℕ) : (absBytes fuel n).length ≤ fuel := by
  induction fuel generalizing n with
  | zero => exact le_rfl
  | succ fuel ih =>
    unfold absBytes
    split_ifs
    · exact Nat.zero_le _
    · exact Nat.succ_le_succ (ih _)

theorem serialize_small (bn : CScriptNum) : bn.serialize.length ≤ MAX_SCRIPT_ELEMENT_SIZE := by
  have hbytes := absBytes_length 8 bn.natAbs
  have hlength : bn.serialize.length ≤ 9 := by
    unfold CScriptNum.serialize
    dsimp only
    cases (absBytes 8 bn.natAbs).getLast? with
    | none => exact Nat.zero_le 9
    | some msb =>
      dsimp only
      split_ifs
      · exact List.length_append.trans_le (Nat.succ_le_succ hbytes)
      · exact List.length_append.trans_le (Nat.succ_le_succ hbytes)
      · rw [List.length_append,List.length_dropLast,List.length_singleton]
        omega
      · exact hbytes.trans (Nat.le_succ 8)
  exact hlength.trans (by decide)

theorem vchBool_small (b : Bool) : (vchBool b).length ≤ MAX_SCRIPT_ELEMENT_SIZE := by
  cases b <;> decide

@[simp] theorem allSmall_cons {x : valtype} {s : List valtype} :
    AllSmall (x::s) ↔ x.length ≤ MAX_SCRIPT_ELEMENT_SIZE ∧ AllSmall s := List.forall_mem_cons

theorem AllSmall.sublist {s s' : List valtype} (h : AllSmall s) (hsub : s'.Sublist s) :
    AllSmall s' := fun x hx => h x (hsub.subset hx)

section
variable {stack : List valtype} (hstack : AllSmall stack)
include hstack

theorem evalStackOp_small (opcode : UInt8) : Leaves AllSmall (evalStackOp opcode stack) := by
  unfold evalStackOp
  repeat' with_reducible refine leaves_ite (fun _ => ?_) fun _ => ?_
  all_goals
    rcases stack with _ | ⟨x1,_ | ⟨x2,_ | ⟨x3,_ | ⟨x4,_ | ⟨x5,_ | ⟨x6,s⟩⟩⟩⟩⟩⟩ <;>
    first
    | exact leaves_error _
    | rw [leaves_ok]; split_ifs <;> simp_all
    | rw [leaves_ok]; simp_all [serialize_small]

theorem evalPickRoll_small (fRequireMinimal roll : Bool) :
    Leaves AllSmall (evalPickRoll fRequireMinimal roll stack) := by
  unfold evalPickRoll
  rcases stack with _ | ⟨x,_ | ⟨y,s⟩⟩
  · exact leaves_error _
  · exact leaves_error _
  have hrest : AllSmall (y::s) := (allSmall_cons.mp hstack).2
  refine leaves_bind fun bn _ => leaves_ite (fun _ => leaves_error _) fun hn => ?_
  have hlt : bn.getint.toNat < (y::s).length := by omega
  rw [leaves_ok,allSmall_cons,List.getD_eq_getElem?_getD,List.getElem?_eq_getElem hlt]
  refine ⟨hrest _ (List.getElem_mem hlt),?_⟩
  cases roll with
  | false => exact hrest
  | true => exact hrest.sublist (List.eraseIdx_sublist _ _)

theorem evalUnary_small (fRequireMinimal : Bool) (f : CScriptNum → CScriptNum) :
    Leaves AllSmall (evalUnary fRequireMinimal f stack) := by
  rcases stack with _ | ⟨x,s⟩
  · exact leaves_error _
  · refine leaves_bind fun bn _ => leaves_ok.mpr ?_
    exact allSmall_cons.mpr ⟨serialize_small _,(allSmall_cons.mp hstack).2⟩

theorem evalBinary_small (fRequireMinimal : Bool) (f : CScriptNum → CScriptNum → CScriptNum) :
    Leaves AllSmall (evalBinary fRequireMinimal f stack) := by
  rcases stack with _ | ⟨x2,_ | ⟨x1,s⟩⟩
  · exact leaves_error _
  · exact leaves_error _
  · simp only [allSmall_cons] at hstack
    refine leaves_bind fun bn1 _ => leaves_bind fun bn2 _ => leaves_ok.mpr ?_
    exact allSmall_cons.mpr ⟨serialize_small _,hstack.2.2⟩

theorem evalWithin_small (fRequireMinimal : Bool) :
    Leaves AllSmall (evalWithin fRequireMinimal stack) := by
  rcases stack with _ | ⟨x3,_ | ⟨x2,_ | ⟨x1,s⟩⟩⟩
  · exact leaves_error _
  · exact leaves_error _
  · exact leaves_error _
  · simp only [allSmall_cons] at hstack
    refine leaves_bind fun bn1 _ => leaves_bind fun bn2 _ => leaves_bind
      fun bn3 _ => leaves_ok.mpr ?_
    exact allSmall_cons.mpr ⟨vchBool_small _,hstack.2.2.2⟩

theorem popTrue_small (failure : ScriptError) : Leaves AllSmall (popTrue failure stack) := by
  rcases stack with _ | ⟨x,s⟩
  · exact leaves_error _
  · refine leaves_ite (fun _ => leaves_ok.mpr ?_) fun _ => leaves_error _
    exact (allSmall_cons.mp hstack).2

theorem verifyTop_small (isVerify fSuccess : Bool) (failure : ScriptError) :
    Leaves AllSmall (verifyTop isVerify fSuccess failure stack) := by
  refine leaves_ite (fun _ => leaves_ite (fun _ => leaves_ok.mpr hstack) fun _ =>
    leaves_error _) fun _ => leaves_ok.mpr ?_
  exact allSmall_cons.mpr ⟨vchBool_small _,hstack⟩

theorem evalEqual_small (isVerify : Bool) : Leaves AllSmall (evalEqual isVerify stack) := by
  rcases stack with _ | ⟨x2,_ | ⟨x1,s⟩⟩
  · exact leaves_error _
  · exact leaves_error _
  · simp only [allSmall_cons] at hstack
    exact verifyTop_small hstack.2.2 _ _ _

theorem evalHash_small {hash : valtype → valtype}
    (hhash : ∀ vch, (hash vch).length ≤ MAX_SCRIPT_ELEMENT_SIZE) :
    Leaves AllSmall (evalHash hash stack) := by
  rcases stack with _ | ⟨x,s⟩
  · exact leaves_error _
  · exact leaves_ok.mpr (allSmall_cons.mpr ⟨hhash x,(allSmall_cons.mp hstack).2⟩)

theorem evalNumericOp_small (fRequireMinimal : Bool) (opcode : UInt8) :
    Leaves AllSmall (evalNumericOp fRequireMinimal opcode stack) := by
  unfold evalNumericOp
  repeat' with_reducible refine leaves_ite (fun _ => ?_) fun _ => ?_
  all_goals first
    | exact evalUnary_small hstack _ _
    | exact evalBinary_small hstack _ _
    | exact evalWithin_small hstack _
    | exact leaves_error _
    | exact leaves_bind fun s hs => popTrue_small (evalBinary_small hstack _ _ s hs) _

end

theorem takeGroup_small {n : ℕ} {stack group rest : List valtype} {x : valtype}
    (hstack : AllSmall stack) (h : takeGroup n stack = .ok (group,x,rest)) : AllSmall rest := by
  rcases Nat.lt_or_ge n stack.length with hn | hn
  · rw [takeGroup_eq hn] at h
    cases h
    exact hstack.sublist (List.drop_sublist _ _)
  · rw [takeGroup_fail hn] at h
    cases h

/-- The elements of both stacks are small. -/
def Machine.Small (m : Machine) : Prop := AllSmall m.stack ∧ AllSmall m.altstack

section
variable {m : Machine} (hm : m.Small)
include hm

theorem onStack_small {f : List valtype → StackResult} (hf : Leaves AllSmall (f m.stack)) :
    Leaves Machine.Small (onStack f m) :=
  leaves_bind fun s hs => leaves_ok.mpr ⟨hf s hs,hm.2⟩

theorem discourage_small (flags : ScriptFlags) : Leaves Machine.Small (discourage flags m) :=
  leaves_ite (fun _ => leaves_error _) fun _ => leaves_ok.mpr hm

theorem evalCheckLockTimeVerify_small (flags : ScriptFlags) (checker : BaseSignatureChecker) :
    Leaves Machine.Small (evalCheckLockTimeVerify flags checker m) :=
  leaves_ite (fun _ => discourage_small hm flags) fun _ => leaves_bind fun _ _ =>
    leaves_ite (fun _ => leaves_error _) fun _ => leaves_ok.mpr hm

theorem evalCheckSequenceVerify_small (flags : ScriptFlags) (checker : BaseSignatureChecker) :
    Leaves Machine.Small (evalCheckSequenceVerify flags checker m) :=
  leaves_ite (fun _ => discourage_small hm flags) fun _ => leaves_bind fun _ _ =>
    leaves_ite (fun _ => leaves_ok.mpr hm) fun _ => leaves_ite (fun _ => leaves_error _)
      fun _ => leaves_ok.mpr hm

theorem evalIf_small (notif : Bool) : Leaves Machine.Small (evalIf notif m) := by
  obtain ⟨hs,ha⟩ := hm
  refine leaves_ite (fun _ => ?_) fun _ => leaves_ok.mpr ⟨hs,ha⟩
  cases hstack : m.stack with
  | nil => exact leaves_error _
  | cons x s =>
    rw [hstack,allSmall_cons] at hs
    exact leaves_ok.mpr ⟨hs.2,ha⟩

theorem evalElse_small : Leaves Machine.Small (evalElse m) := by
  unfold evalElse
  cases m.vfExec with
  | nil => exact leaves_error _
  | cons f fs => exact leaves_ok.mpr hm

theorem evalEndif_small : Leaves Machine.Small (evalEndif m) := by
  unfold evalEndif
  cases m.vfExec with
  | nil => exact leaves_error _
  | cons f fs => exact leaves_ok.mpr hm

theorem evalToAltstack_small : Leaves Machine.Small (evalToAltstack m) := by
  obtain ⟨hs,ha⟩ := hm
  unfold evalToAltstack
  cases hstack : m.stack with
  | nil => exact leaves_error _
  | cons x s =>
    rw [hstack,allSmall_cons] at hs
    exact leaves_ok.mpr ⟨hs.2,allSmall_cons.mpr ⟨hs.1,ha⟩⟩

theorem evalFromAltstack_small : Leaves Machine.Small (evalFromAltstack m) := by
  obtain ⟨hs,ha⟩ := hm
  unfold evalFromAltstack
  cases hstack : m.altstack with
  | nil => exact leaves_error _
  | cons x s =>
    rw [hstack,allSmall_cons] at ha
    exact leaves_ok.mpr ⟨allSmall_cons.mpr ⟨ha.1,hs⟩,ha.2⟩

variable [Crypto] (flags : ScriptFlags) (checker : BaseSignatureChecker)

theorem evalCheckSig_small (isVerify : Bool) :
    Leaves Machine.Small (evalCheckSig isVerify flags checker m) := by
  obtain ⟨hs,ha⟩ := hm
  unfold evalCheckSig
  rcases hstack : m.stack with _ | ⟨vchPubKey,_ | ⟨vchSig,s⟩⟩
  · exact leaves_error _
  · exact leaves_error _
  · rw [hstack,allSmall_cons,allSmall_cons] at hs
    exact leaves_bind fun _ _ => leaves_bind fun stack hstack =>
      leaves_ok.mpr ⟨verifyTop_small hs.2.2 _ _ _ stack hstack,ha⟩

theorem evalCheckMultiSig_small (isVerify : Bool) :
    Leaves Machine.Small (evalCheckMultiSig isVerify flags checker m) := by
  obtain ⟨hs,ha⟩ := hm
  unfold evalCheckMultiSig
  dsimp only
  rcases hstack : m.stack with _ | ⟨vchKeysCount,s⟩
  · exact leaves_error _
  rw [hstack,allSmall_cons] at hs
  refine leaves_bind fun _ _ => leaves_ite (fun _ => leaves_error _) fun _ => ?_
  refine leaves_bind fun ⟨keys,vchSigsCount,s1⟩ h1 => leaves_bind fun _ _ => ?_
  refine leaves_bind fun ⟨sigs,dummy,s2⟩ h2 => leaves_bind fun _ _ => ?_
  refine leaves_ite (fun _ => leaves_error _) fun _ => leaves_bind fun stack hstack => ?_
  have hs2 := takeGroup_small (takeGroup_small hs.2 h1) h2
  exact leaves_ok.mpr ⟨verifyTop_small hs2 _ _ _ stack hstack,ha⟩

theorem evalOpcode_small (opcode : UInt8) (pc : CScript) :
    Leaves Machine.Small (evalOpcode flags checker opcode pc m) := by
  have hhash : ∀ {w : ℕ} (b : BitVec w) {n : ℕ}, n ≤ MAX_SCRIPT_ELEMENT_SIZE →
      (serializeBits n b).length ≤ MAX_SCRIPT_ELEMENT_SIZE := by
    intro w b n hn
    rwa [serializeBits,leBytes_length]
  unfold evalOpcode
  dsimp only
  refine leaves_ite (fun _ => ?_) fun _ => ?_
  · exact leaves_ok.mpr ⟨allSmall_cons.mpr ⟨serialize_small _,hm.1⟩,hm.2⟩
  repeat' with_reducible refine leaves_ite (fun _ => ?_) fun _ => ?_
  all_goals first
    | exact leaves_ok.mpr hm
    | exact leaves_error _
    | exact discourage_small hm flags
    | exact evalCheckLockTimeVerify_small hm flags checker
    | exact evalCheckSequenceVerify_small hm flags checker
    | exact evalIf_small hm _
    | exact evalElse_small hm
    | exact evalEndif_small hm
    | exact evalToAltstack_small hm
    | exact evalFromAltstack_small hm
    | exact evalCheckSig_small hm flags checker _
    | exact evalCheckMultiSig_small hm flags checker _
    | exact onStack_small hm (popTrue_small hm.1 _)
    | exact onStack_small hm (evalPickRoll_small hm.1 _ _)
    | exact onStack_small hm (evalEqual_small hm.1 _)
    | exact onStack_small hm (evalNumericOp_small hm.1 _ _)
    | exact onStack_small hm (evalHash_small hm.1 fun _ => hhash _ (by decide))
    | exact onStack_small hm (evalStackOp_small hm.1 _)

theorem execOp_small {op : ScriptOp} (hop : op.vch.length ≤ MAX_SCRIPT_ELEMENT_SIZE) :
    Leaves Machine.Small (execOp flags checker op m) :=
  leaves_ite (fun _ => leaves_ite (fun _ => leaves_error _) fun _ =>
    leaves_ok.mpr ⟨allSmall_cons.mpr ⟨hop,hm.1⟩,hm.2⟩) fun _ =>
  leaves_ite (fun _ => evalOpcode_small hm flags checker _ _) fun _ => leaves_ok.mpr hm

end

/-- The limits that hold between two operations. -/
structure Machine.Bounded (m : Machine) : Prop where
  small : m.Small
  size : m.stack.length + m.altstack.length ≤ MAX_STACK_SIZE

section
variable [Crypto] (flags : ScriptFlags) (checker : BaseSignatureChecker)

/-- The step lemma: a round leaves small elements and checks how many there are. -/
theorem Machine.Bounded.evalStep {m : Machine} (hm : m.Bounded) (op : ScriptOp) :
    Leaves Machine.Bounded (evalStep flags checker op m) := by
  refine leaves_ite (fun _ => leaves_error _) fun hop => leaves_bind fun m1 hcount => ?_
  refine leaves_ite (fun _ => leaves_error _) fun _ => leaves_bind fun m2 hexec => ?_
  have hm1 : m1.Small := by
    unfold countOp at hcount
    split_ifs at hcount <;> cases hcount <;> exact hm.small
  intro m' hsize
  obtain ⟨hle,rfl⟩ := checkStackSize_ok.mp hsize
  exact ⟨execOp_small hm1 flags checker (not_lt.mp hop) m2 hexec,hle⟩

theorem Machine.Bounded.evalRounds {m : Machine} (hm : m.Bounded) (rounds : ℕ) (pc : CScript) :
    Leaves (fun s => s.2.Bounded) (evalRoundsAt flags checker rounds pc m) := by
  induction rounds generalizing pc m with
  | zero => exact leaves_ok.mpr hm
  | succ rounds ih =>
    refine leaves_ite (fun _ => leaves_ok.mpr hm) fun _ => ?_
    cases getOp pc with
    | none => exact leaves_error _
    | some op =>
      refine leaves_bind fun m' hm' => ih ?_ _
      rw [evalStepAt_eq] at hm'
      exact hm.evalStep flags checker op m' (lift_eq_ok.mp hm')

/-- A pay-to-script-hash output starts by taking an element off the stack. -/
theorem evalTrue_p2sh_nil {scriptPubKey : CScript}
    (hp2sh : scriptPubKey.isPayToScriptHash = true) :
    ∃ e, evalTrue [] scriptPubKey flags checker = .error e := by
  simp only [CScript.isPayToScriptHash,Bool.and_eq_true,beq_iff_eq] at hp2sh
  obtain ⟨⟨⟨hlength,hhead⟩,_⟩,_⟩ := hp2sh
  cases scriptPubKey with
  | nil => cases hlength
  | cons opcode pc =>
    obtain rfl : opcode = OP_HASH160 := by simpa using hhead
    have hsize : ¬ (OP_HASH160::pc).length > MAX_SCRIPT_SIZE := by
      rw [hlength]
      decide
    refine ⟨.invalidStackOperation,?_⟩
    unfold evalTrue evalScript
    rw [if_neg hsize]
    rfl

theorem evalRedeemScriptAt_eq {stackCopy : List valtype} (hne : stackCopy ≠ [])
    (scriptSig : CScript) : ∃ answer,
      evalRedeemScript stackCopy scriptSig flags checker = .ok answer ∧
      evalRedeemScriptAt stackCopy scriptSig flags checker = lift answer := by
  unfold evalRedeemScript evalRedeemScriptAt
  split_ifs
  · exact ⟨_,rfl,rfl⟩
  · rw [ensure_true hne]
    cases stackCopy with
    | nil => exact absurd rfl hne
    | cons pubKey2 stack => exact ⟨_,rfl,evalTrueAt_eq flags checker stack pubKey2⟩

/-- The assertion before the pop holds: on an empty stack the output script has failed. -/
theorem verifyStackAt_eq (scriptSig scriptPubKey : CScript) : ∃ answer,
    verifyStack scriptSig scriptPubKey flags checker = .ok answer ∧
      verifyStackAt scriptSig scriptPubKey flags checker = lift answer := by
  unfold verifyStack verifyStackAt
  rw [evalScriptAt_eq]
  cases evalScript [] scriptSig flags checker with
  | error e => exact ⟨_,rfl,rfl⟩
  | ok stackCopy =>
    rw [lift_ok,ok_bind,evalTrueAt_eq]
    dsimp only
    cases htrue : evalTrue stackCopy scriptPubKey flags checker with
    | error e => exact ⟨_,rfl,rfl⟩
    | ok stack =>
      rw [lift_ok,ok_bind]
      split_ifs with hp2sh
      · refine evalRedeemScriptAt_eq flags checker ?_ scriptSig
        rintro rfl
        obtain ⟨e,he⟩ := evalTrue_p2sh_nil flags checker (Bool.and_eq_true_iff.mp hp2sh).2
        rw [he] at htrue
        cases htrue
      · exact ⟨_,rfl,rfl⟩

omit [Crypto] in
theorem checkCleanStackAt_eq {flags : ScriptFlags} (hclean : CleanStackNeedsP2SH flags)
    (stack : List valtype) : ∃ answer, checkCleanStack stack flags = .ok answer ∧
      checkCleanStackAt stack flags = lift answer := by
  unfold checkCleanStack checkCleanStackAt
  cases hflag : hasFlag flags SCRIPT_VERIFY_CLEANSTACK with
  | false => exact ⟨_,rfl,rfl⟩
  | true =>
    rw [hclean hflag,ensure_true rfl,if_pos rfl,ok_bind,Bool.not_true,
      if_neg Bool.false_ne_true,if_neg Bool.false_ne_true]
    split_ifs
    · exact ⟨_,rfl,rfl⟩
    · exact ⟨_,rfl,rfl⟩

theorem verifyScriptAt_eq {flags : ScriptFlags} (hclean : CleanStackNeedsP2SH flags)
    (scriptSig scriptPubKey : CScript) : ∃ answer,
      verifyScript scriptSig scriptPubKey flags checker = .ok answer ∧
      verifyScriptAt scriptSig scriptPubKey flags checker = lift answer := by
  unfold verifyScript verifyScriptAt
  split_ifs
  · exact ⟨_,rfl,rfl⟩
  · obtain ⟨answer,h,hat⟩ := verifyStackAt_eq flags checker scriptSig scriptPubKey
    rw [h,hat]
    cases answer with
    | error e => exact ⟨_,rfl,rfl⟩
    | ok stack => exact checkCleanStackAt_eq hclean stack

/-- For every script and every initial stack within the limits, every number of rounds of
`EvalScript` leaves all elements within 520 bytes and both stacks together within 1000 elements,
and the evaluation has no fault: no access outside a stack, no int64 overflow, no failed assertion.
Nor has a verification, if its flags ask for P2SH whenever they ask for a clean stack. -/
theorem evalScript_safe :
    (∀ (script : CScript) (stack : List valtype),
      (∀ x ∈ stack, x.length ≤ MAX_SCRIPT_ELEMENT_SIZE) → stack.length ≤ MAX_STACK_SIZE →
      (∀ (rounds : ℕ) (pc : CScript) (m : Machine),
        evalRoundsAt flags checker rounds script { stack, pbegincodehash := script } =
          .ok (pc,m) →
        (∀ x ∈ m.stack, x.length ≤ MAX_SCRIPT_ELEMENT_SIZE) ∧
        (∀ x ∈ m.altstack, x.length ≤ MAX_SCRIPT_ELEMENT_SIZE) ∧
        m.stack.length + m.altstack.length ≤ MAX_STACK_SIZE) ∧
      ∀ what, evalScriptAt stack script flags checker ≠ fault what) ∧
    ∀ (scriptSig scriptPubKey : CScript),
      (hasFlag flags SCRIPT_VERIFY_CLEANSTACK = true →
        hasFlag flags SCRIPT_VERIFY_P2SH = true) →
      ∀ what, verifyScriptAt scriptSig scriptPubKey flags checker ≠ fault what := by
  refine ⟨fun script stack hsmall hsize => ⟨?_,?_⟩,?_⟩
  · intro rounds pc m hrounds
    have hm : Machine.Bounded { stack, pbegincodehash := script } :=
      ⟨⟨hsmall,fun _ hx => nomatch hx⟩,hsize⟩
    obtain ⟨⟨hs,ha⟩,hsize'⟩ := hm.evalRounds flags checker rounds script (pc,m) hrounds
    exact ⟨hs,ha,hsize'⟩
  · intro what
    rw [evalScriptAt_eq]
    exact lift_ne_fault _ what
  · intro scriptSig scriptPubKey hclean what
    obtain ⟨answer,_,hat⟩ := verifyScriptAt_eq checker hclean scriptSig scriptPubKey
    rw [hat]
    exact lift_ne_fault answer what

end

section
local instance emptyCrypto : Crypto := tableCrypto []

/-- CLEANSTACK without P2SH ends in the assertion. -/
theorem cleanStack_asserts : verifyScriptAt [] [OP_1] SCRIPT_VERIFY_CLEANSTACK {} =
    fault "(flags & SCRIPT_VERIFY_P2SH) != 0" := by
  decide

theorem duplicated_safe :
    (∀ rounds pc m, evalRoundsAt SCRIPT_VERIFY_NONE {} rounds [OP_DUP,OP_TOALTSTACK]
      { stack := [[1]], pbegincodehash := [OP_DUP,OP_TOALTSTACK] } = .ok (pc,m) →
      m.stack.length + m.altstack.length ≤ MAX_STACK_SIZE) ∧
    ∀ what, verifyScriptAt [OP_1] [] SCRIPT_VERIFY_NONE {} ≠ fault what := by
  obtain ⟨heval,hverify⟩ := evalScript_safe SCRIPT_VERIFY_NONE {}
  obtain ⟨hrounds,_⟩ := heval [OP_DUP,OP_TOALTSTACK] [[1]] (by decide) (by decide)
  refine ⟨fun rounds pc m h => (hrounds rounds pc m h).2.2,?_⟩
  exact hverify [OP_1] [] (by decide)

end
end Sidechain
