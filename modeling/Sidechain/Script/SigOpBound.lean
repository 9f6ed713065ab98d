import Sidechain.Script.SigCalls

/-! The signature operations counted in a script bound the calls of `CheckSig` that running it
makes: the number in front of a multi-signature operation is the one it finds on the stack. -/
namespace Sidechain
open Costed

theorem decodeOP_N_le {opcode : UInt8} (h : opcode ≤ OP_16) :
    decodeOP_N opcode ≤ MAX_PUBKEYS_PER_MULTISIG := by
  have hlast := UInt8.le_iff_toNat_le.mp h
  have h16 : OP_16.toNat = 96 := by decide
  have h1 : OP_1.toNat = 81 := by decide
  have h20 : MAX_PUBKEYS_PER_MULTISIG = 20 := rfl
  unfold decodeOP_N
  split_ifs <;> omega

theorem sigOpsOf_le (lastOpcode opcode : UInt8) :
    sigOpsOf true lastOpcode opcode ≤ sigOpsOf false lastOpcode opcode := by
  unfold sigOpsOf
  rw [if_neg (by simp : ¬ (false = true ∧ OP_1 ≤ lastOpcode ∧ lastOpcode ≤ OP_16))]
  split_ifs with h1 h2 h3
  · exact Nat.le_refl _
  · exact decodeOP_N_le h3.2.2
  · exact Nat.le_refl _
  · exact Nat.le_refl _

theorem sigOpCountFrom_le (fuel : ℕ) (lastOpcode : UInt8) (pc : CScript) :
    sigOpCountFrom true fuel lastOpcode pc ≤ sigOpCountFrom false fuel lastOpcode pc := by
  induction fuel generalizing lastOpcode pc with
  | zero => exact le_rfl
  | succ fuel ih =>
    unfold sigOpCountFrom
    cases getOp pc with
    | none => exact le_rfl
    | some op => exact add_le_add (sigOpsOf_le _ _) (ih _ _)

theorem getSigOpCount_le (script : CScript) :
    script.getSigOpCount true ≤ script.getSigOpCount false := sigOpCountFrom_le _ _ _

variable [Crypto] {flags : ScriptFlags} {checker : BaseSignatureChecker}

theorem evalCheckSigCounted_calls (isVerify : Bool) (m : Machine) :
    (evalCheckSigCounted isVerify flags checker m).calls ≤ 1 := by
  unfold evalCheckSigCounted
  rcases m.stack with _ | ⟨vchPubKey,_ | ⟨vchSig,s⟩⟩
  · exact Nat.zero_le 1
  · exact Nat.zero_le 1
  · refine calls_lift_bind_le fun _ _ => ?_
    refine calls_bind_le (m := 1) (n := 0) (Nat.le_of_eq (calls_call _)) fun fSuccess _ => ?_
    exact calls_lift_bind_le fun stack _ => Nat.le_of_eq (calls_pure _)

/-- Every round uses up a key. -/
theorem multiSigLoopCounted_calls (scriptCode : CScript) (sigs keys : List valtype) :
    (multiSigLoopCounted flags checker scriptCode sigs keys).calls ≤ keys.length := by
  induction keys generalizing sigs with
  | nil => cases sigs <;> exact le_rfl
  | cons key keys ih =>
    cases sigs with
    | nil => exact Nat.zero_le _
    | cons sig sigs =>
      unfold multiSigLoopCounted
      refine calls_lift_bind_le fun _ _ => ?_
      have hlen : (key::keys).length = 1 + keys.length := Nat.add_comm _ _
      rw [hlen]
      refine calls_bind_le (m := 1) (Nat.le_of_eq (calls_call _)) fun fOk _ => ?_
      split_ifs
      · exact Nat.zero_le _
      · exact ih sigs
      · exact Nat.zero_le _
      · exact ih (sig::sigs)

omit [Crypto] in
theorem takeGroup_length {n : ℕ} {stack group rest : List valtype} {x : valtype}
    (h : takeGroup n stack = .ok (group,x,rest)) : group.length ≤ n := by
  unfold takeGroup at h
  split at h
  · cases h
    exact List.length_take_le _ _
  · cases h

theorem evalCheckMultiSigCounted_calls (isVerify : Bool) (m : Machine) {bound : ℕ}
    (h : ∀ x s n, m.stack = x::s → readCount (hasFlag flags SCRIPT_VERIFY_MINIMALDATA)
      MAX_PUBKEYS_PER_MULTISIG .pubkeyCount x = .ok n → n ≤ bound) :
    (evalCheckMultiSigCounted isVerify flags checker m).calls ≤ bound := by
  unfold evalCheckMultiSigCounted
  cases hstack : m.stack with
  | nil => exact Nat.zero_le bound
  | cons vchKeysCount stack =>
    refine calls_lift_bind_le fun nKeysCount hcount => ?_
    have hbound := h _ _ _ hstack hcount
    simp only
    split_ifs
    · exact Nat.zero_le bound
    · refine calls_lift_bind_le fun r hkeys => ?_
      obtain ⟨keys,vchSigsCount,stack⟩ := r
      refine calls_lift_bind_le fun nSigsCount _ => ?_
      refine calls_lift_bind_le fun r _ => ?_
      obtain ⟨sigs,dummy,stack⟩ := r
      have hlen := (takeGroup_length hkeys).trans hbound
      refine calls_bind_le (n := 0) ((multiSigLoopCounted_calls _ _ _).trans hlen)
        fun fSuccess _ => ?_
      split_ifs
      · exact Nat.le_of_eq (calls_lift _)
      · exact calls_lift_bind_le fun stack _ => Nat.le_of_eq (calls_pure _)

/-- After an operation that pushes a small number, the number is on top. -/
def PushedLast (lastOpcode : UInt8) (m : Machine) : Prop :=
  OP_1 ≤ lastOpcode → lastOpcode ≤ OP_16 → m.fExec = true →
    ∃ s, m.stack = CScriptNum.serialize ((lastOpcode.toNat : ℤ) - 0x50) :: s

omit [Crypto] in
theorem readCount_small {fRequireMinimal : Bool} {opcode : UInt8} (hlow : OP_1 ≤ opcode)
    (hhigh : opcode ≤ OP_16) {n : ℕ} (h : readCount fRequireMinimal MAX_PUBKEYS_PER_MULTISIG
      .pubkeyCount (CScriptNum.serialize ((opcode.toNat : ℤ) - 0x50)) = .ok n) :
    n = decodeOP_N opcode := by
  have hall : ∀ b : Bool, ∀ k < 16, readCount b MAX_PUBKEYS_PER_MULTISIG .pubkeyCount
      (CScriptNum.serialize (((k + 81 : ℕ) : ℤ) - 0x50)) = .ok (k + 1) := by decide
  have h1 := UInt8.le_iff_toNat_le.mp hlow
  have h16 := UInt8.le_iff_toNat_le.mp hhigh
  rw [show OP_1.toNat = 81 by decide] at h1
  rw [show OP_16.toNat = 96 by decide] at h16
  have hk := hall fRequireMinimal (opcode.toNat - 81) (by omega)
  rw [show opcode.toNat - 81 + 81 = opcode.toNat by omega,h] at hk
  cases hk
  have hne : opcode ≠ OP_0 := by
    rintro rfl
    exact absurd hlow (by decide)
  unfold decodeOP_N
  rw [if_neg hne,show OP_1.toNat = 81 by decide]
  omega

/-- A multi-signature operation makes at most as many calls as are counted for it. -/
theorem evalCheckMultiSigCounted_le (isVerify : Bool) {lastOpcode : UInt8} {m : Machine}
    (hexec : m.fExec = true) (hlast : PushedLast lastOpcode m) :
    (evalCheckMultiSigCounted isVerify flags checker m).calls ≤
      if true = true ∧ OP_1 ≤ lastOpcode ∧ lastOpcode ≤ OP_16 then decodeOP_N lastOpcode
      else MAX_PUBKEYS_PER_MULTISIG := by
  refine evalCheckMultiSigCounted_calls isVerify m fun x s n hstack hcount => ?_
  split_ifs with hsmall
  · obtain ⟨s',hs'⟩ := hlast hsmall.2.1 hsmall.2.2 hexec
    rw [hs'] at hstack
    cases hstack
    exact (readCount_small hsmall.2.1 hsmall.2.2 hcount).le
  · exact readCount_le hcount

theorem evalOpcodeCounted_calls {lastOpcode opcode : UInt8} {pc : CScript} {m : Machine}
    (hexec : m.fExec = true) (hlast : PushedLast lastOpcode m) :
    (evalOpcodeCounted flags checker opcode pc m).calls ≤ sigOpsOf true lastOpcode opcode := by
  unfold evalOpcodeCounted
  split_ifs with h1 h2 h3 h4
  · subst h1
    exact evalCheckSigCounted_calls false m
  · subst h2
    exact evalCheckSigCounted_calls true m
  · subst h3
    exact evalCheckMultiSigCounted_le false hexec hlast
  · subst h4
    exact evalCheckMultiSigCounted_le true hexec hlast
  · exact Nat.zero_le _

theorem execOpCounted_calls {lastOpcode : UInt8} {op : ScriptOp} {m : Machine}
    (hlast : PushedLast lastOpcode m) :
    (execOpCounted flags checker op m).calls ≤ sigOpsOf true lastOpcode op.opcode := by
  unfold execOpCounted
  split_ifs with h1 h2 h3
  · exact Nat.zero_le _
  · exact Nat.zero_le _
  · cases hexec : m.fExec with
    | true => exact evalOpcodeCounted_calls hexec hlast
    | false =>
      -- conditionals are no signature operations
      have hcond : OP_IF ≤ op.opcode ∧ op.opcode ≤ OP_ENDIF := by simpa [hexec] using h3
      have hne : ∀ opcode : UInt8, OP_ENDIF < opcode → op.opcode ≠ opcode := by
        rintro opcode hlt rfl
        exact absurd hcond.2 (UInt8.not_le.mpr hlt)
      unfold evalOpcodeCounted
      rw [if_neg (hne _ (by decide)),if_neg (hne _ (by decide)),if_neg (hne _ (by decide)),
        if_neg (hne _ (by decide))]
      exact Nat.zero_le _
  · exact Nat.zero_le _

theorem execOp_pushedLast {op : ScriptOp} {m m' : Machine}
    (h : execOp flags checker op m = .ok m') : PushedLast op.opcode m' := by
  intro hlow hhigh hexec'
  have hpush : ¬ op.opcode ≤ OP_PUSHDATA4 := by
    rw [UInt8.not_le]
    exact UInt8.lt_of_lt_of_le (by decide) hlow
  have hcond : ¬ OP_IF ≤ op.opcode := by
    rw [UInt8.not_le]
    exact UInt8.lt_of_le_of_lt hhigh (by decide)
  unfold execOp at h
  rw [if_neg (by simp [hpush])] at h
  split_ifs at h with hexec
  · unfold evalOpcode at h
    simp only at h
    rw [if_pos (.inr ⟨hlow,hhigh⟩)] at h
    cases h
    exact ⟨_,rfl⟩
  · cases h
    simp [hexec'] at hexec

omit [Crypto] in
theorem countOp_ok {opcode : UInt8} {m m' : Machine} (h : countOp opcode m = .ok m') :
    m'.stack = m.stack ∧ m'.vfExec = m.vfExec := by
  unfold countOp at h
  split_ifs at h
  · cases h
    exact ⟨rfl,rfl⟩
  · cases h
    exact ⟨rfl,rfl⟩

/-- One round makes at most the calls that are counted for it, and pushes what it should. -/
theorem evalStepCounted_calls {lastOpcode : UInt8} {op : ScriptOp} {m : Machine}
    (hlast : PushedLast lastOpcode m) :
    (evalStepCounted flags checker op m).calls ≤ sigOpsOf true lastOpcode op.opcode := by
  unfold evalStepCounted
  split
  · exact Nat.zero_le _
  · refine calls_lift_bind_le fun m' hm' => ?_
    obtain ⟨hstack,hvf⟩ := countOp_ok hm'
    have hlast' : PushedLast lastOpcode m' := by
      unfold PushedLast Machine.fExec
      rw [hstack,hvf]
      exact hlast
    split
    · exact Nat.zero_le _
    · exact calls_bind_le (n := 0) (execOpCounted_calls hlast') fun m _ =>
        Nat.le_of_eq (calls_lift _)

theorem evalStep_pushedLast {op : ScriptOp} {m m' : Machine}
    (h : evalStep flags checker op m = .ok m') : PushedLast op.opcode m' := by
  unfold evalStep at h
  split at h
  · cases h
  · obtain ⟨m₁,_,h⟩ := Run.bind_ok.mp h
    split at h
    · cases h
    · obtain ⟨m₂,hm₂,h⟩ := Run.bind_ok.mp h
      obtain ⟨_,rfl⟩ := checkStackSize_ok.mp h
      exact execOp_pushedLast hm₂

theorem evalLoopCounted_calls (fuel : ℕ) {lastOpcode : UInt8} {pc : CScript} {m : Machine}
    (hlast : PushedLast lastOpcode m) :
    (evalLoopCounted flags checker fuel pc m).calls ≤ sigOpCountFrom true fuel lastOpcode pc := by
  induction fuel generalizing lastOpcode pc m with
  | zero => exact Nat.le_refl _
  | succ fuel ih =>
    unfold evalLoopCounted sigOpCountFrom
    split_ifs
    · exact Nat.zero_le _
    · cases getOp pc with
      | none => exact Nat.le_refl _
      | some op =>
        refine calls_bind_le (evalStepCounted_calls hlast) fun m' hm' => ih ?_
        rw [evalStepCounted_result] at hm'
        exact evalStep_pushedLast hm'

theorem evalScriptCounted_calls (stack : List valtype) (script : CScript) :
    (evalScriptCounted stack script flags checker).calls ≤ script.getSigOpCount true := by
  unfold evalScriptCounted
  split_ifs
  · exact Nat.zero_le _
  · refine calls_bind_le (n := 0) (evalLoopCounted_calls _ ?_) fun m _ => ?_
    · intro _ hhigh
      exact absurd hhigh (by decide)
    · split_ifs
      · exact Nat.le_of_eq (calls_pure _)
      · exact Nat.le_of_eq (calls_lift _)

theorem evalTrueCounted_calls (stack : List valtype) (script : CScript) :
    (evalTrueCounted stack script flags checker).calls ≤ script.getSigOpCount true := by
  unfold evalTrueCounted
  refine calls_bind_le (n := 0) (evalScriptCounted_calls stack script) fun stack _ => ?_
  split_ifs
  · exact Nat.le_of_eq (calls_pure _)
  · exact Nat.le_of_eq (calls_lift _)

/-- An operation that only pushes leaves its data on top, or a small number, which is a script
without signature operations. -/
theorem execOp_pushed {op : ScriptOp} {m m' : Machine} (hvf : m.vfExec = [])
    (hop : op.opcode ≤ OP_16) (h : execOp flags checker op m = .ok m') : m'.vfExec = [] ∧
      ∃ x s, m'.stack = x::s ∧ CScript.getSigOpCount x true ≤ CScript.getSigOpCount op.vch true := by
  have hexec : m.fExec = true := by simp [Machine.fExec,hvf]
  have hsmall : ∀ k < 18, k ≠ 1 →
      CScript.getSigOpCount (CScriptNum.serialize (((k + 0x4f : ℕ) : ℤ) - 0x50)) true = 0 := by decide
  unfold execOp at h
  rw [hexec,Bool.true_and,Bool.true_or,if_pos rfl] at h
  split_ifs at h with hpush
  · cases h
    exact ⟨hvf,_,_,rfl,Nat.le_refl _⟩
  · have hlow : 0x4f ≤ op.opcode.toNat := by
      rw [decide_eq_true_eq,UInt8.le_iff_toNat_le,show OP_PUSHDATA4.toNat = 0x4e by decide] at hpush
      omega
    have hhigh : op.opcode.toNat ≤ 0x60 := UInt8.le_iff_toNat_le.mp hop
    by_cases hreserved : op.opcode = 0x50
    · rw [hreserved] at h
      cases (h : (.error .badOpcode : Except ScriptError Machine) = .ok m')
    · have hne : op.opcode.toNat ≠ 0x50 := fun heq => hreserved (UInt8.toNat_inj.mp heq)
      have hnum : op.opcode = OP_1NEGATE ∨ OP_1 ≤ op.opcode ∧ op.opcode ≤ OP_16 := by
        by_cases hneg : op.opcode.toNat = 0x4f
        · exact .inl (UInt8.toNat_inj.mp hneg)
        · refine .inr ⟨UInt8.le_iff_toNat_le.mpr ?_,hop⟩
          rw [show OP_1.toNat = 0x51 by decide]
          omega
      unfold evalOpcode at h
      simp only at h
      rw [if_pos hnum] at h
      cases h
      have hother : op.opcode.toNat - 0x4f ≠ 1 := by omega
      have hcount := hsmall (op.opcode.toNat - 0x4f) (by omega) hother
      rw [show op.opcode.toNat - 0x4f + 0x4f = op.opcode.toNat by omega] at hcount
      exact ⟨hvf,_,_,rfl,hcount ▸ Nat.zero_le _⟩

theorem evalStep_pushed {op : ScriptOp} {m m' : Machine} (hvf : m.vfExec = [])
    (hop : op.opcode ≤ OP_16) (h : evalStep flags checker op m = .ok m') : m'.vfExec = [] ∧
      ∃ x s, m'.stack = x::s ∧ CScript.getSigOpCount x true ≤ CScript.getSigOpCount op.vch true := by
  unfold evalStep at h
  split at h
  · cases h
  · obtain ⟨m₁,hm₁,h⟩ := Run.bind_ok.mp h
    split at h
    · cases h
    · obtain ⟨m₂,hm₂,h⟩ := Run.bind_ok.mp h
      obtain ⟨_,rfl⟩ := checkStackSize_ok.mp h
      exact execOp_pushed ((countOp_ok hm₁).2.trans hvf) hop hm₂

theorem evalLoop_lastPush (fuel : ℕ) {pc : CScript} {data : Bytes} {m m' : Machine}
    (hpush : isPushOnlyFrom fuel pc = true) (hvf : m.vfExec = [])
    (htop : ∀ x s, m.stack = x::s → CScript.getSigOpCount x true ≤ CScript.getSigOpCount data true)
    (h : evalLoop flags checker fuel pc m = .ok m') : ∃ data', lastPush fuel data pc = some data' ∧
      ∀ x s, m'.stack = x::s →
        CScript.getSigOpCount x true ≤ CScript.getSigOpCount data' true := by
  induction fuel generalizing pc data m with
  | zero =>
    cases h
    exact ⟨data,rfl,htop⟩
  | succ fuel ih =>
    unfold evalLoop at h
    unfold isPushOnlyFrom at hpush
    unfold lastPush
    by_cases hempty : pc.isEmpty = true
    · rw [if_pos hempty] at h ⊢
      cases h
      exact ⟨data,rfl,htop⟩
    · rw [if_neg hempty] at h hpush ⊢
      cases hop : getOp pc with
      | none => simp [hop] at hpush
      | some op =>
        rw [hop] at h hpush
        simp only at h hpush ⊢
        split_ifs at hpush with hhigh
        rw [if_neg hhigh]
        obtain ⟨m₁,hm₁,h⟩ := Run.bind_ok.mp h
        obtain ⟨hvf₁,x,s,hstack,hcount⟩ := evalStep_pushed hvf (UInt8.not_lt.mp hhigh) hm₁
        refine ih hpush hvf₁ (fun x' s' hstack' => ?_) h
        rw [hstack] at hstack'
        cases hstack'
        exact hcount

theorem evalRedeemScriptCounted_calls {stackCopy : List valtype} {scriptSig scriptPubKey : CScript}
    (hp2sh : scriptPubKey.isPayToScriptHash = true)
    (heval : evalScript [] scriptSig flags checker = .ok stackCopy) :
    (evalRedeemScriptCounted stackCopy scriptSig flags checker).calls ≤
      scriptPubKey.getP2SHSigOpCount scriptSig := by
  unfold evalRedeemScriptCounted
  split_ifs with hpush
  · exact Nat.zero_le _
  · cases hstack : stackCopy with
    | nil => exact Nat.zero_le _
    | cons pubKey2 stack =>
      rw [hstack] at heval
      unfold evalScript at heval
      split_ifs at heval
      obtain ⟨m,hm,hleft⟩ := Run.bind_ok.mp heval
      split_ifs at hleft
      have hfinal : m.stack = pubKey2::stack := Except.ok.inj hleft
      obtain ⟨data,hdata,hcount⟩ := @evalLoop_lastPush _ _ _ scriptSig.length _ [] _ _
        (by simpa [CScript.isPushOnly] using hpush) rfl (by simp) hm
      rw [calls_attempt]
      refine (evalTrueCounted_calls stack pubKey2).trans ?_
      unfold CScript.getP2SHSigOpCount
      rw [hp2sh,hdata]
      exact hcount _ _ hfinal

/-- What is counted for an input: its script, the output script, and the redeem script where one is
evaluated. -/
def countedSigOps (scriptSig scriptPubKey : CScript) (flags : ScriptFlags) : ℕ :=
  scriptSig.getSigOpCount true + (scriptPubKey.getSigOpCount true +
    if hasFlag flags SCRIPT_VERIFY_P2SH && scriptPubKey.isPayToScriptHash then
      scriptPubKey.getP2SHSigOpCount scriptSig
    else 0)

theorem verifyStackCounted_calls (scriptSig scriptPubKey : CScript) :
    (verifyStackCounted scriptSig scriptPubKey flags checker).calls ≤
      countedSigOps scriptSig scriptPubKey flags := by
  unfold verifyStackCounted countedSigOps
  refine calls_bind_le (evalScriptCounted_calls [] scriptSig) fun r hr => ?_
  rw [result_attempt,evalScriptCounted_result] at hr
  cases r with
  | error e => exact Nat.zero_le _
  | ok stackCopy =>
    refine calls_bind_le (evalTrueCounted_calls stackCopy scriptPubKey) fun r _ => ?_
    cases r with
    | error e => exact Nat.zero_le _
    | ok stack =>
      simp only
      split_ifs with hp2sh
      · rw [Bool.and_eq_true] at hp2sh
        exact evalRedeemScriptCounted_calls hp2sh.2 (Except.ok.inj hr)
      · exact Nat.le_of_eq (calls_pure _)

theorem verifyScriptCounted_calls (scriptSig scriptPubKey : CScript) :
    (verifyScriptCounted scriptSig scriptPubKey flags checker).calls ≤
      countedSigOps scriptSig scriptPubKey flags := by
  unfold verifyScriptCounted
  split_ifs
  · exact Nat.zero_le _
  · refine calls_bind_le (n := 0) (verifyStackCounted_calls scriptSig scriptPubKey) fun r _ => ?_
    cases r <;> exact Nat.le_refl 0

end Sidechain
