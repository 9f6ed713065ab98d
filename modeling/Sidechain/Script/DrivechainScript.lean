import Sidechain.Primitives.Drivechain
import Sidechain.Script.Parse
import Sidechain.Script.Verify

/-! How the interpreter treats scripts that end in the byte `OP_DRIVECHAIN`: its loop as a fold
over the parsed operations, and which of these scripts can be spent. -/
namespace Sidechain
open Run

section
variable [Crypto]

/-- The loop succeeds exactly if the whole script parses and its operations run in order. -/
theorem evalLoop_ok {flags : ScriptFlags} {checker : BaseSignatureChecker} {fuel : ℕ} {pc : CScript}
    {m m' : Machine} : evalLoop flags checker fuel pc m = .ok m' ↔
      ∃ ops, parseFrom fuel pc = some ops ∧
        ops.foldlM (fun m op => evalStep flags checker op m) m = .ok m' := by
  induction fuel generalizing pc m with
  | zero => simp [evalLoop,parseFrom,pure,Except.pure]
  | succ fuel ih =>
    unfold evalLoop parseFrom
    split_ifs with hpc
    · simp [pure,Except.pure]
    · cases hop : getOp pc with
      | none => simp
      | some op =>
        simp only [Option.map_eq_map,Option.map_eq_some_iff]
        constructor
        · intro h
          obtain ⟨m₁,hstep,hloop⟩ := bind_ok.mp h
          obtain ⟨ops,hparse,hrun⟩ := ih.mp hloop
          exact ⟨op::ops,⟨ops,hparse,rfl⟩,foldlM_cons_ok.mpr ⟨m₁,hstep,hrun⟩⟩
        · rintro ⟨_,⟨ops,hparse,rfl⟩,hrun⟩
          obtain ⟨m₁,hstep,hrest⟩ := foldlM_cons_ok.mp hrun
          exact bind_ok.mpr ⟨m₁,hstep,ih.mpr ⟨ops,hparse,hrest⟩⟩

/-- Run operations one after the other. -/
def evalOps (flags : ScriptFlags) (checker : BaseSignatureChecker) (ops : List ScriptOp)
    (m : Machine) : Except ScriptError Machine :=
  ops.foldlM (fun m op => evalStep flags checker op m) m

theorem evalScript_ok {stack stack' : List valtype} {script : CScript} {flags : ScriptFlags}
    {checker : BaseSignatureChecker} : evalScript stack script flags checker = .ok stack' ↔
      script.length ≤ MAX_SCRIPT_SIZE ∧ ∃ ops m, script.parse = some ops ∧
        evalOps flags checker ops { stack, pbegincodehash := script } = .ok m ∧
        m.vfExec = [] ∧ m.stack = stack' := by
  unfold evalScript
  split_ifs with hsize
  · simp [hsize]
  · rw [bind_ok]
    constructor
    · rintro ⟨m,hloop,hend⟩
      obtain ⟨ops,hparse,hrun⟩ := evalLoop_ok.mp hloop
      split_ifs at hend with hexec
      injection hend with hend
      exact ⟨Nat.not_lt.mp hsize,ops,m,hparse,hrun,by simpa using hexec,hend⟩
    · rintro ⟨_,ops,m,hparse,hrun,hexec,rfl⟩
      exact ⟨m,evalLoop_ok.mpr ⟨ops,hparse,hrun⟩,by simp [hexec]⟩

theorem evalOpcode_drivechain (flags : ScriptFlags) (checker : BaseSignatureChecker) (pc : CScript)
    (m : Machine) : evalOpcode flags checker OP_DRIVECHAIN pc m = .error .badOpcode := rfl

/-- The operation `OP_DRIVECHAIN` is only survived in a branch that is skipped. -/
theorem evalStep_drivechain {flags : ScriptFlags} {checker : BaseSignatureChecker} {op : ScriptOp}
    {m m' : Machine} (hop : op.opcode = OP_DRIVECHAIN)
    (h : evalStep flags checker op m = .ok m') : m'.vfExec ≠ [] := by
  unfold evalStep at h
  split_ifs at h with _ hdis
  · obtain ⟨_,_,h⟩ := bind_ok.mp h
    cases h
  obtain ⟨m₁,_,h⟩ := bind_ok.mp h
  obtain ⟨m₂,hexec,hsize⟩ := bind_ok.mp h
  obtain ⟨_,rfl⟩ := checkStackSize_ok.mp hsize
  unfold execOp at hexec
  rw [hop] at hexec
  have hpush : decide (OP_DRIVECHAIN ≤ OP_PUSHDATA4) = false := by decide
  have hif : decide (OP_DRIVECHAIN ≤ OP_ENDIF) = false := by decide
  rw [hpush,hif,Bool.and_false,Bool.and_false,Bool.or_false,if_neg (by decide)] at hexec
  split_ifs at hexec with hrun
  · rw [evalOpcode_drivechain] at hexec
    cases hexec
  · cases hexec
    intro hnil
    exact hrun (by simp [Machine.fExec,hnil])

/-- No script that ends in the operation `OP_DRIVECHAIN` runs to its end. -/
theorem evalOps_drivechain {flags : ScriptFlags} {checker : BaseSignatureChecker}
    {body : List ScriptOp} {last : ScriptOp} {m m' : Machine} (hop : last.opcode = OP_DRIVECHAIN)
    (h : evalOps flags checker (body ++ [last]) m = .ok m') : m'.vfExec ≠ [] := by
  obtain ⟨m₁,_,hlast⟩ := foldlM_append_ok.mp h
  exact evalStep_drivechain hop (foldlM_singleton_ok.mp hlast)

/-- A push is neither counted nor disabled nor a conditional. -/
theorem evalStep_push_eq (flags : ScriptFlags) (checker : BaseSignatureChecker) {op : ScriptOp}
    (m : Machine) (hop : op.opcode ≤ OP_PUSHDATA4) :
    evalStep flags checker op m =
      if op.vch.length > MAX_SCRIPT_ELEMENT_SIZE then .error .pushSize
      else if !m.fExec then checkStackSize m
      else if hasFlag flags SCRIPT_VERIFY_MINIMALDATA && !checkMinimalPush op.vch op.opcode then
        .error .minimalData
      else checkStackSize { m with stack := op.vch :: m.stack } := by
  have hcount : ¬ op.opcode > OP_16 := push_cases (P := fun b => ¬ b > OP_16) (by decide) hop
  have hdis : isDisabledOpcode op.opcode = false :=
    push_cases (P := fun b => isDisabledOpcode b = false) (by decide) hop
  have hnoif : (OP_IF ≤ op.opcode && op.opcode ≤ OP_ENDIF) = false :=
    push_cases (P := fun b => (OP_IF ≤ b && b ≤ OP_ENDIF) = false) (by decide) hop
  have hcountOp : countOp op.opcode m = .ok m := if_neg hcount
  have hexecOp : execOp flags checker op m = if !m.fExec then .ok m
      else if hasFlag flags SCRIPT_VERIFY_MINIMALDATA && !checkMinimalPush op.vch op.opcode then
        .error .minimalData
      else .ok { m with stack := op.vch :: m.stack } := by
    unfold execOp
    rw [decide_eq_true hop,hnoif]
    cases m.fExec <;> rfl
  have hrun : evalStep flags checker op m = if op.vch.length > MAX_SCRIPT_ELEMENT_SIZE then
      .error .pushSize else execOp flags checker op m >>= checkStackSize := by
    unfold evalStep
    rw [hcountOp,hdis]
    rfl
  rw [hrun,hexecOp]
  split_ifs <;> rfl

/-- A push that ends outside skipped branches ran outside them and within the limits. -/
theorem evalStep_push_ok {flags : ScriptFlags} {checker : BaseSignatureChecker} {op : ScriptOp}
    {m m' : Machine} (hop : op.opcode ≤ OP_PUSHDATA4) :
    (evalStep flags checker op m = .ok m' ∧ m'.vfExec = []) ↔
      m.vfExec = [] ∧ op.vch.length ≤ MAX_SCRIPT_ELEMENT_SIZE ∧
      (hasFlag flags SCRIPT_VERIFY_MINIMALDATA → checkMinimalPush op.vch op.opcode) ∧
      m.stack.length + 1 + m.altstack.length ≤ MAX_STACK_SIZE ∧
      m' = { m with stack := op.vch :: m.stack } := by
  rw [evalStep_push_eq flags checker m hop]
  split_ifs with hsize hskip hmin
  · simp [hsize]
  · rw [checkStackSize_ok]
    have hne : m.vfExec ≠ [] := by
      intro hnil
      simp [Machine.fExec,hnil] at hskip
    constructor
    · rintro ⟨⟨_,rfl⟩,hnil⟩
      exact absurd hnil hne
    · exact fun h => absurd h.1 hne
  · simp only [Bool.and_eq_true,Bool.not_eq_true'] at hmin
    simp [hmin.1,hmin.2]
  · rw [checkStackSize_ok]
    have hmin' : hasFlag flags SCRIPT_VERIFY_MINIMALDATA → checkMinimalPush op.vch op.opcode := by
      simpa using hmin
    constructor
    · rintro ⟨⟨hlen,rfl⟩,hnil⟩
      exact ⟨hnil,Nat.not_lt.mp hsize,hmin',by simpa [Nat.add_right_comm] using hlen,rfl⟩
    · rintro ⟨hnil,_,_,hlen,rfl⟩
      exact ⟨⟨by simpa [Nat.add_right_comm] using hlen,rfl⟩,hnil⟩

omit [Crypto] in
/-- A script whose final byte is `OP_DRIVECHAIN` ends in that operation or in a push. -/
theorem parse_getLast? {script : CScript} {body : List ScriptOp} {last : ScriptOp}
    (hlast : script.getLast? = some OP_DRIVECHAIN) (h : script.parse = some (body ++ [last])) :
    last.opcode = OP_DRIVECHAIN ∨
      (last.opcode ≤ OP_PUSHDATA4 ∧ last.vch.getLast? = some OP_DRIVECHAIN) := by
  obtain ⟨pc,hget,hend,hpc⟩ := parseFrom_last le_rfl h
  rcases getOp_getLast? hget hend (hpc.trans hlast) (by decide) with h | h
  · exact Or.inl h.1
  · exact Or.inr h

omit [Crypto] in
theorem not_isPayToScriptHash {script : CScript} (hlast : script.getLast? = some OP_DRIVECHAIN) :
    script.isPayToScriptHash = false := by
  by_contra h
  simp only [Bool.not_eq_false,CScript.isPayToScriptHash,Bool.and_eq_true,beq_iff_eq] at h
  rw [List.getLast?_eq_getElem?,h.1.1.1,h.2] at hlast
  exact absurd hlast (by decide)

omit [Crypto] in
theorem castToBool_getLast? {vch : valtype} (h : vch.getLast? = some OP_DRIVECHAIN) :
    castToBool vch = true := by
  obtain ⟨front,rfl⟩ := List.getLast?_eq_some_iff.mp h
  exact castToBool_append_singleton front (by decide) (by decide)

/-- Every operation can be read and the last one is `OP_DRIVECHAIN`, or one cannot be read. -/
def CScript.endsAtDrivechain (script : CScript) : Bool :=
  match script.parse with
  | none => true
  | some ops => ops.getLast?.map ScriptOp.opcode == some OP_DRIVECHAIN

theorem evalTrue_endsAtDrivechain {script : CScript} (h : script.endsAtDrivechain = true)
    (stack : List valtype) (flags : ScriptFlags) (checker : BaseSignatureChecker) :
    ∃ e, evalTrue stack script flags checker = .error e := by
  cases htrue : evalTrue stack script flags checker with
  | error e => exact ⟨e,rfl⟩
  | ok stack' =>
    obtain ⟨_,hscript,_⟩ := bind_ok.mp htrue
    obtain ⟨_,ops,m,hparse,hrun,hexec,_⟩ := evalScript_ok.mp hscript
    simp only [CScript.endsAtDrivechain,hparse,beq_iff_eq,Option.map_eq_some_iff] at h
    obtain ⟨last,hlast,hop⟩ := h
    obtain ⟨body,rfl⟩ := List.getLast?_eq_some_iff.mp hlast
    exact absurd hexec (evalOps_drivechain hop hrun)

/-- What it takes to spend a script up to its last operation, a push: the operations before it
run from the stack of `scriptSig` with all conditionals closed, and the push is allowed. -/
def SpendsBefore (scriptSig script : CScript) (flags : ScriptFlags) (checker : BaseSignatureChecker)
    (body : List ScriptOp) (last : ScriptOp) : Prop :=
  (hasFlag flags SCRIPT_VERIFY_SIGPUSHONLY → scriptSig.isPushOnly) ∧
  script.length ≤ MAX_SCRIPT_SIZE ∧
  ∃ stackCopy m, evalScript [] scriptSig flags checker = .ok stackCopy ∧
    evalOps flags checker body { stack := stackCopy, pbegincodehash := script } = .ok m ∧
    m.vfExec = [] ∧ last.vch.length ≤ MAX_SCRIPT_ELEMENT_SIZE ∧
    (hasFlag flags SCRIPT_VERIFY_MINIMALDATA → checkMinimalPush last.vch last.opcode) ∧
    m.stack.length + 1 + m.altstack.length ≤ MAX_STACK_SIZE ∧
    (hasFlag flags SCRIPT_VERIFY_CLEANSTACK → hasFlag flags SCRIPT_VERIFY_P2SH ∧ m.stack = [])

omit [Crypto] in
theorem checkCleanStack_ok {stack : List valtype} {flags : ScriptFlags} :
    checkCleanStack stack flags = .ok (.ok ()) ↔
      (hasFlag flags SCRIPT_VERIFY_CLEANSTACK → hasFlag flags SCRIPT_VERIFY_P2SH ∧
        stack.length = 1) := by
  unfold checkCleanStack
  split_ifs with h1 h2 h3
  · simp at h1
    simp [h1]
  · simp at h1 h2
    simp [h1,h2]
  · simp at h1
    simp [h1,h3]
  · simp at h1 h2 h3
    simp [h2,h3]

/-- A script ending in a push with a true last byte leaves exactly what the operations before
the push leave, with the push on top. -/
theorem evalTrue_lastPush {script : CScript} {body : List ScriptOp} {last : ScriptOp}
    (hparse : script.parse = some (body ++ [last])) (hop : last.opcode ≤ OP_PUSHDATA4)
    (hvch : castToBool last.vch = true) {stack stack' : List valtype} {flags : ScriptFlags}
    {checker : BaseSignatureChecker} : evalTrue stack script flags checker = .ok stack' ↔
      script.length ≤ MAX_SCRIPT_SIZE ∧ ∃ m,
        evalOps flags checker body { stack, pbegincodehash := script } = .ok m ∧
        m.vfExec = [] ∧ last.vch.length ≤ MAX_SCRIPT_ELEMENT_SIZE ∧
        (hasFlag flags SCRIPT_VERIFY_MINIMALDATA → checkMinimalPush last.vch last.opcode) ∧
        m.stack.length + 1 + m.altstack.length ≤ MAX_STACK_SIZE ∧
        stack' = last.vch :: m.stack := by
  unfold evalTrue
  rw [bind_ok]
  constructor
  · rintro ⟨s,hscript,htop⟩
    obtain ⟨hsize,ops,m',hp,hrun,hexec,rfl⟩ := evalScript_ok.mp hscript
    obtain rfl : body ++ [last] = ops := Option.some.inj (hparse.symm.trans hp)
    obtain ⟨m,hbody,hlast⟩ := foldlM_append_ok.mp hrun
    obtain ⟨hnil,hlen,hmin,hdepth,rfl⟩ :=
      (evalStep_push_ok hop).mp ⟨foldlM_singleton_ok.mp hlast,hexec⟩
    split_ifs at htop
    injection htop with htop
    exact ⟨hsize,m,hbody,hnil,hlen,hmin,hdepth,htop.symm⟩
  · rintro ⟨hsize,m,hbody,hnil,hlen,hmin,hdepth,rfl⟩
    obtain ⟨hlast,hexec⟩ := (evalStep_push_ok hop).mpr ⟨hnil,hlen,hmin,hdepth,rfl⟩
    refine ⟨_,evalScript_ok.mpr ⟨hsize,_,_,hparse,
      foldlM_append_ok.mpr ⟨m,hbody,foldlM_singleton_ok.mpr hlast⟩,hexec,rfl⟩,?_⟩
    simp [topIsTrue,hvch]

theorem verifyStack_not_p2sh {scriptSig script : CScript} (h : script.isPayToScriptHash = false)
    (flags : ScriptFlags) (checker : BaseSignatureChecker) :
    verifyStack scriptSig script flags checker =
      .ok (evalScript [] scriptSig flags checker >>= (evalTrue · script flags checker)) := by
  unfold verifyStack
  rw [h]
  cases evalScript [] scriptSig flags checker with
  | error e => rfl
  | ok stackCopy =>
    cases htrue : evalTrue stackCopy script flags checker <;> simp [htrue,bind,Except.bind]

/-- A script that ends in push data with the byte `OP_DRIVECHAIN` is spent like any other. -/
theorem verifies_lastPush {script : CScript} (hlast : script.getLast? = some OP_DRIVECHAIN)
    {body : List ScriptOp} {last : ScriptOp} (hparse : script.parse = some (body ++ [last]))
    (hop : last.opcode ≤ OP_PUSHDATA4) (hvch : last.vch.getLast? = some OP_DRIVECHAIN)
    (scriptSig : CScript) (flags : ScriptFlags) (checker : BaseSignatureChecker) :
    Verifies scriptSig script flags checker ↔
      SpendsBefore scriptSig script flags checker body last := by
  have htop := castToBool_getLast? hvch
  have hrun : ∀ stack stack', evalTrue stack script flags checker = .ok stack' ↔ _ :=
    fun _ _ => evalTrue_lastPush hparse hop htop
  unfold Verifies verifyScript SpendsBefore
  rw [verifyStack_not_p2sh (not_isPayToScriptHash hlast)]
  split_ifs with hpush
  · simp only [Bool.and_eq_true,Bool.not_eq_true'] at hpush
    simp [hpush.1,hpush.2]
  · have hpush' : hasFlag flags SCRIPT_VERIFY_SIGPUSHONLY → scriptSig.isPushOnly := by
      simpa using hpush
    cases hsig : evalScript [] scriptSig flags checker with
    | error e => simp [bind,Except.bind]
    | ok stackCopy =>
      change (match Except.ok (evalTrue stackCopy script flags checker) with
        | .error h => .error h
        | .ok (.error e) => .ok (.error e)
        | .ok (.ok stack) => checkCleanStack stack flags) = Except.ok (Except.ok ()) ↔ _
      cases htrue : evalTrue stackCopy script flags checker with
      | error e =>
        refine iff_of_false (by simp) ?_
        rintro ⟨_,hsize,s,m,hs,hbody,hnil,hlen,hmin,hdepth,_⟩
        injection hs with hs
        subst hs
        have := (hrun stackCopy _).mpr ⟨hsize,m,hbody,hnil,hlen,hmin,hdepth,rfl⟩
        rw [htrue] at this
        cases this
      | ok stack =>
        obtain ⟨hsize,m,hbody,hnil,hlen,hmin,hdepth,rfl⟩ := (hrun stackCopy stack).mp htrue
        simp only [checkCleanStack_ok,List.length_cons,Nat.add_eq_right,List.length_eq_zero_iff]
        constructor
        · intro hclean
          exact ⟨hpush',hsize,stackCopy,m,rfl,hbody,hnil,hlen,hmin,hdepth,hclean⟩
        · rintro ⟨_,_,s,m',hs,hbody',_,_,_,_,hclean⟩
          injection hs with hs
          subst hs
          rw [hbody] at hbody'
          injection hbody' with hm
          rwa [hm]

/-- Which drivechain scripts are unspendable: those whose final byte is the last operation, or
that cannot be parsed. Any other one ends in push data and is spent by whatever spends the
operations before it. -/
theorem isDrivechainScript_spend {script : CScript} (h : script.isDrivechainScript = .ok true) :
    (script.endsAtDrivechain = true → ∀ scriptSig flags checker,
      ∃ e, verifyScript scriptSig script flags checker = .ok (.error e)) ∧
    (script.endsAtDrivechain = false → ∃ body last, script.parse = some (body ++ [last]) ∧
      last.vch.getLast? = some OP_DRIVECHAIN ∧ ∀ scriptSig flags checker,
        Verifies scriptSig script flags checker ↔
          SpendsBefore scriptSig script flags checker body last) := by
  have hlast : script.getLast? = some OP_DRIVECHAIN := by
    by_contra hne
    unfold CScript.isDrivechainScript at h
    split_ifs at h
    all_goals cases h
  constructor
  · intro hend scriptSig flags checker
    exact verifyScript_of_evalTrue_error fun stack =>
      evalTrue_endsAtDrivechain hend stack flags checker
  · intro hend
    unfold CScript.endsAtDrivechain at hend
    cases hparse : script.parse with
    | none => simp [hparse] at hend
    | some ops =>
      obtain rfl | ⟨body,last,rfl⟩ := List.eq_nil_or_concat ops
      · have hnil : script ≠ [] := by rintro rfl; cases hlast
        exact absurd hparse (parse_ne_nil hnil)
      rw [List.concat_eq_append] at hparse
      simp only [hparse,List.getLast?_concat,Option.map_some,beq_eq_false_iff_ne] at hend
      rcases parse_getLast? hlast hparse with hop | ⟨hop,hvch⟩
      · exact absurd (congrArg some hop) hend
      · exact ⟨body,last,by simp,hvch,verifies_lastPush hlast hparse hop hvch⟩

end

/-- A withdrawal whose final byte is the one byte of a second push. -/
def pushEndedWithdraw : CScript :=
  pushData (DrivechainObj.withdraw {}).serialize ++ [0x01,OP_DRIVECHAIN]

/-- Withdrawn coins that anyone can spend with an empty `scriptSig`. -/
theorem pushEndedWithdraw_spent :
    pushEndedWithdraw.isDrivechainScript = .ok true ∧
      (letI : Crypto := tableCrypto []; Verifies [] pushEndedWithdraw SCRIPT_VERIFY_NONE {}) := by
  unfold Verifies
  decide

/-- A withdrawal as the wallet writes it is not spent by leaving true on the stack. -/
theorem withdraw_script_unspendable :
    letI : Crypto := tableCrypto []
    ∃ e, verifyScript [OP_1] (DrivechainObj.withdraw {}).getScript SCRIPT_VERIFY_NONE {} =
      .ok (.error e) :=
  letI := tableCrypto []
  (isDrivechainScript_spend (by decide)).1 (by decide) _ _ _

end Sidechain
