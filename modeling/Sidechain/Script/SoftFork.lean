import Sidechain.Library.Run
import Sidechain.Script.Verify

/-! Verification flags only add checks: a script that verifies under some flags verifies under
fewer of them, and its evaluation leaves the same stacks behind. -/
namespace Sidechain
open Run

/-- Every flag of the first set is in the second. -/
def FlagsSubset (F1 F2 : ScriptFlags) : Prop := F1 &&& F2 = F1

/-- `assert((flags & SCRIPT_VERIFY_P2SH) != 0)` holds wherever it is reached. -/
def CleanStackNeedsP2SH (flags : ScriptFlags) : Prop :=
  hasFlag flags SCRIPT_VERIFY_CLEANSTACK → hasFlag flags SCRIPT_VERIFY_P2SH

theorem FlagsSubset.hasFlag {F1 F2 : ScriptFlags} (h : FlagsSubset F1 F2) {mask : ScriptFlags}
    (h1 : hasFlag F1 mask = true) : hasFlag F2 mask = true := by
  unfold Sidechain.hasFlag at *
  rw [← h,UInt32.and_assoc] at h1
  simp only [bne_iff_ne,ne_eq] at *
  intro h2
  rw [h2] at h1
  exact h1 (UInt32.and_zero)

section
variable {fMinimal1 fMinimal2 : Bool}

theorem ofVch_below (h : fMinimal1 = true → fMinimal2 = true) (nMaxNumSize : ℕ) (vch : valtype) :
    Below (CScriptNum.ofVch fMinimal2 nMaxNumSize vch)
      (CScriptNum.ofVch fMinimal1 nMaxNumSize vch) := by
  refine below_ite (Below.refl _) (below_guard ?_ (Below.refl _))
  simp only [Bool.and_eq_true]
  exact And.imp_left h

theorem evalPickRoll_below (h : fMinimal1 = true → fMinimal2 = true) (roll : Bool)
    (stack : List valtype) :
    Below (evalPickRoll fMinimal2 roll stack) (evalPickRoll fMinimal1 roll stack) := by
  match stack with
  | [] | [_] => exact Below.refl _
  | x::_::_ => exact (ofVch_below h _ x).bind fun _ => Below.refl _

theorem evalUnary_below (h : fMinimal1 = true → fMinimal2 = true) (f : CScriptNum → CScriptNum)
    (stack : List valtype) :
    Below (evalUnary fMinimal2 f stack) (evalUnary fMinimal1 f stack) := by
  match stack with
  | [] => exact Below.refl _
  | x::_ => exact (ofVch_below h _ x).bind fun _ => Below.refl _

theorem evalBinary_below (h : fMinimal1 = true → fMinimal2 = true)
    (f : CScriptNum → CScriptNum → CScriptNum) (stack : List valtype) :
    Below (evalBinary fMinimal2 f stack) (evalBinary fMinimal1 f stack) := by
  match stack with
  | [] | [_] => exact Below.refl _
  | x2::x1::_ =>
    exact (ofVch_below h _ x1).bind fun _ => (ofVch_below h _ x2).bind fun _ => Below.refl _

theorem evalWithin_below (h : fMinimal1 = true → fMinimal2 = true) (stack : List valtype) :
    Below (evalWithin fMinimal2 stack) (evalWithin fMinimal1 stack) := by
  match stack with
  | [] | [_] | [_,_] => exact Below.refl _
  | x3::x2::x1::_ =>
    exact (ofVch_below h _ x1).bind fun _ => (ofVch_below h _ x2).bind fun _ =>
      (ofVch_below h _ x3).bind fun _ => Below.refl _

theorem evalNumericOp_below (h : fMinimal1 = true → fMinimal2 = true) (opcode : UInt8)
    (stack : List valtype) :
    Below (evalNumericOp fMinimal2 opcode stack) (evalNumericOp fMinimal1 opcode stack) := by
  unfold evalNumericOp
  repeat' apply below_ite
  all_goals first
    | exact evalUnary_below h _ stack
    | exact evalBinary_below h _ stack
    | exact (evalBinary_below h _ stack).bind fun _ => Below.refl _
    | exact evalWithin_below h stack
    | exact Below.refl _

theorem readLockTime_below (h : fMinimal1 = true → fMinimal2 = true) (stack : List valtype) :
    Below (readLockTime fMinimal2 stack) (readLockTime fMinimal1 stack) := by
  match stack with
  | [] => exact Below.refl _
  | x::_ => exact (ofVch_below h _ x).bind fun _ => Below.refl _

theorem readCount_below (h : fMinimal1 = true → fMinimal2 = true) (most : ℕ)
    (failure : ScriptError) (x : valtype) :
    Below (readCount fMinimal2 most failure x) (readCount fMinimal1 most failure x) :=
  (ofVch_below h _ x).bind fun _ => Below.refl _

end

section
variable {F1 F2 : ScriptFlags}

theorem checkPubKeyEncoding_below (h : FlagsSubset F1 F2) (vchPubKey : valtype) :
    Below (checkPubKeyEncoding vchPubKey F2) (checkPubKeyEncoding vchPubKey F1) := by
  refine below_guard ?_ (Below.refl _)
  simp only [Bool.and_eq_true]
  exact And.imp_left h.hasFlag

/-- The reserved operations are the ones a new flag turns on, so they must not be discouraged
under the smaller set. -/
theorem discourage_ok {flags : ScriptFlags}
    (h : hasFlag flags SCRIPT_VERIFY_DISCOURAGE_UPGRADABLE_NOPS = false) (m : Machine) :
    discourage flags m = .ok m := by
  unfold discourage
  rw [h]
  rfl

theorem discourage_id {flags : ScriptFlags} {m m' : Machine} (h : discourage flags m = .ok m') :
    m = m' := by
  unfold discourage at h
  split_ifs at h
  exact Except.ok.inj h

variable (hF : FlagsSubset F1 F2)
  (hnops : hasFlag F1 SCRIPT_VERIFY_DISCOURAGE_UPGRADABLE_NOPS = false)
  (checker : BaseSignatureChecker)
include hnops

theorem discourage_below (m : Machine) : Below (discourage F2 m) (discourage F1 m) := by
  intro m' h
  rw [discourage_ok hnops,discourage_id h]

include hF

/-- Turned off, an operation with a flag of its own does nothing; turned on, it only checks. -/
theorem evalCheckLockTimeVerify_below (m : Machine) :
    Below (evalCheckLockTimeVerify F2 checker m) (evalCheckLockTimeVerify F1 checker m) := by
  intro m' h
  unfold evalCheckLockTimeVerify at h ⊢
  by_cases h1 : hasFlag F1 SCRIPT_VERIFY_CHECKLOCKTIMEVERIFY = true
  · simp only [h1,hF.hasFlag h1,Bool.not_true,Bool.false_eq_true,if_false] at h ⊢
    exact (readLockTime_below hF.hasFlag m.stack).bind (fun _ => Below.refl _) m' h
  · simp only [h1,Bool.not_false,if_true,discourage_ok hnops]
    split_ifs at h with h2
    · rw [discourage_id h]
    · obtain ⟨nLockTime,_,hcheck⟩ := bind_ok.mp h
      split_ifs at hcheck
      exact hcheck

theorem evalCheckSequenceVerify_below (m : Machine) :
    Below (evalCheckSequenceVerify F2 checker m) (evalCheckSequenceVerify F1 checker m) := by
  intro m' h
  unfold evalCheckSequenceVerify at h ⊢
  by_cases h1 : hasFlag F1 SCRIPT_VERIFY_CHECKSEQUENCEVERIFY = true
  · simp only [h1,hF.hasFlag h1,Bool.not_true,Bool.false_eq_true,if_false] at h ⊢
    exact (readLockTime_below hF.hasFlag m.stack).bind (fun _ => Below.refl _) m' h
  · simp only [h1,Bool.not_false,if_true,discourage_ok hnops]
    split_ifs at h with h2
    · rw [discourage_id h]
    · obtain ⟨nSequence,_,hcheck⟩ := bind_ok.mp h
      split_ifs at hcheck
      · exact hcheck
      · exact hcheck

end

section
variable [Crypto] {F1 F2 : ScriptFlags}

theorem checkSignatureEncoding_below (h : FlagsSubset F1 F2) (vchSig : valtype) :
    Below (checkSignatureEncoding vchSig F2) (checkSignatureEncoding vchSig F1) := by
  unfold checkSignatureEncoding
  refine below_ite (Below.refl _) (below_guard ?_ (below_optional h.hasFlag fun _ => ?_))
  · simp only [Bool.and_eq_true]
    exact And.imp_left h.hasFlag
  · refine below_guard ?_ (Below.refl _)
    simp only [Bool.and_eq_true]
    exact And.imp_left h.hasFlag

theorem checkEncodings_below (h : FlagsSubset F1 F2) (vchSig vchPubKey : valtype) :
    Below (checkEncodings F2 vchSig vchPubKey) (checkEncodings F1 vchSig vchPubKey) :=
  (checkSignatureEncoding_below h vchSig).bind fun _ => checkPubKeyEncoding_below h vchPubKey

variable (hF : FlagsSubset F1 F2)
  (hnops : hasFlag F1 SCRIPT_VERIFY_DISCOURAGE_UPGRADABLE_NOPS = false)
  (checker : BaseSignatureChecker)
include hF

theorem multiSigLoop_below (scriptCode : CScript) (sigs keys : List valtype) :
    Below (multiSigLoop F2 checker scriptCode sigs keys)
      (multiSigLoop F1 checker scriptCode sigs keys) := by
  induction keys generalizing sigs with
  | nil => cases sigs <;> exact Below.refl _
  | cons key keys ih =>
    cases sigs with
    | nil => exact Below.refl _
    | cons sig sigs =>
      refine (checkEncodings_below hF sig key).bind fun _ => ?_
      exact below_ite (below_ite (Below.refl _) (ih sigs)) (below_ite (Below.refl _) (ih _))

theorem evalCheckSig_below (isVerify : Bool) (m : Machine) :
    Below (evalCheckSig isVerify F2 checker m) (evalCheckSig isVerify F1 checker m) := by
  unfold evalCheckSig
  match m.stack with
  | [] | [_] => exact Below.refl _
  | vchPubKey::vchSig::_ => exact (checkEncodings_below hF vchSig vchPubKey).bind fun _ => Below.refl _

theorem evalCheckMultiSig_below (isVerify : Bool) (m : Machine) :
    Below (evalCheckMultiSig isVerify F2 checker m) (evalCheckMultiSig isVerify F1 checker m) := by
  unfold evalCheckMultiSig
  match m.stack with
  | [] => exact Below.refl _
  | _::_ =>
    refine (readCount_below hF.hasFlag _ _ _).bind fun nKeysCount => ?_
    refine below_ite (Below.refl _) ((Below.refl _).bind fun group => ?_)
    refine (readCount_below hF.hasFlag _ _ _).bind fun nSigsCount => ?_
    refine (Below.refl _).bind fun group => (multiSigLoop_below hF checker _ _ _).bind fun _ => ?_
    refine below_guard ?_ (Below.refl _)
    simp only [Bool.and_eq_true]
    exact And.imp_left hF.hasFlag

include hnops

theorem evalOpcode_below (opcode : UInt8) (pc : CScript) (m : Machine) :
    Below (evalOpcode F2 checker opcode pc m) (evalOpcode F1 checker opcode pc m) := by
  have hMinimal : hasFlag F1 SCRIPT_VERIFY_MINIMALDATA = true →
      hasFlag F2 SCRIPT_VERIFY_MINIMALDATA = true := hF.hasFlag
  unfold evalOpcode
  repeat' apply below_ite
  all_goals first
    | exact Below.refl _
    | exact evalCheckLockTimeVerify_below hF hnops checker m
    | exact evalCheckSequenceVerify_below hF hnops checker m
    | exact discourage_below hnops m
    | exact (evalPickRoll_below hMinimal _ m.stack).bind fun _ => Below.refl _
    | exact (evalNumericOp_below hMinimal opcode m.stack).bind fun _ => Below.refl _
    | exact evalCheckSig_below hF checker _ m
    | exact evalCheckMultiSig_below hF checker _ m

theorem execOp_below (op : ScriptOp) (m : Machine) :
    Below (execOp F2 checker op m) (execOp F1 checker op m) := by
  refine below_ite (below_guard ?_ (Below.refl _)) (below_ite ?_ (Below.refl _))
  · simp only [Bool.and_eq_true]
    exact And.imp_left hF.hasFlag
  · exact evalOpcode_below hF hnops checker op.opcode op.pc m

theorem evalStep_below (op : ScriptOp) (m : Machine) :
    Below (evalStep F2 checker op m) (evalStep F1 checker op m) := by
  refine below_ite (Below.refl _) ((Below.refl _).bind fun m => below_ite (Below.refl _) ?_)
  exact (execOp_below hF hnops checker op m).bind fun _ => Below.refl _

theorem evalLoop_below (fuel : ℕ) (pc : CScript) (m : Machine) :
    Below (evalLoop F2 checker fuel pc m) (evalLoop F1 checker fuel pc m) := by
  induction fuel generalizing pc m with
  | zero => exact Below.refl _
  | succ fuel ih =>
    refine below_ite (Below.refl _) ?_
    match getOp pc with
    | none => exact Below.refl _
    | some op => exact (evalStep_below hF hnops checker op m).bind fun m => ih op.pc m

theorem evalScript_below (stack : List valtype) (script : CScript) :
    Below (evalScript stack script F2 checker) (evalScript stack script F1 checker) :=
  below_ite (Below.refl _)
    ((evalLoop_below hF hnops checker _ script _).bind fun _ => Below.refl _)

theorem evalTrue_below (stack : List valtype) (script : CScript) :
    Below (evalTrue stack script F2 checker) (evalTrue stack script F1 checker) :=
  (evalScript_below hF hnops checker stack script).bind fun _ => Below.refl _

theorem evalRedeemScript_softFork {stackCopy stack : List valtype} {scriptSig : CScript}
    (h : evalRedeemScript stackCopy scriptSig F2 checker = .ok (.ok stack)) :
    evalRedeemScript stackCopy scriptSig F1 checker = .ok (.ok stack) := by
  unfold evalRedeemScript at h ⊢
  by_cases hpush : (!scriptSig.isPushOnly) = true
  · rw [if_pos hpush] at h
    cases h
  · rw [if_neg hpush] at h ⊢
    cases stackCopy with
    | nil => cases h
    | cons pubKey2 rest =>
      injection h with h
      exact congrArg Except.ok (evalTrue_below hF hnops checker _ _ _ h)

/-- The fewer flags leave the same stack unless they leave out the pay-to-script-hash
evaluation. -/
theorem verifyStack_softFork {scriptSig scriptPubKey : CScript} {stack : List valtype}
    (h : verifyStack scriptSig scriptPubKey F2 checker = .ok (.ok stack)) :
    ∃ stack', verifyStack scriptSig scriptPubKey F1 checker = .ok (.ok stack') ∧
      (hasFlag F1 SCRIPT_VERIFY_P2SH = true → stack' = stack) := by
  unfold verifyStack at h ⊢
  cases hsig : evalScript [] scriptSig F2 checker with
  | error e => simp [hsig] at h
  | ok stackCopy =>
    cases hpub : evalTrue stackCopy scriptPubKey F2 checker with
    | error e => simp [hsig,hpub] at h
    | ok pubStack =>
      simp only [hsig,hpub] at h
      rw [evalScript_below hF hnops checker _ _ _ hsig]
      dsimp only
      rw [evalTrue_below hF hnops checker _ _ _ hpub]
      dsimp only
      by_cases h1 : hasFlag F1 SCRIPT_VERIFY_P2SH = true
      · rw [hF.hasFlag h1] at h
        rw [h1]
        refine ⟨stack,?_,fun _ => rfl⟩
        split_ifs at h ⊢ with hp2sh
        · exact evalRedeemScript_softFork hF hnops checker h
        · exact h
      · rw [Bool.eq_false_iff.mpr h1]
        exact ⟨pubStack,rfl,fun h => absurd h (by simp)⟩

omit [Crypto] hnops in
theorem checkCleanStack_softFork {stack stack' : List valtype}
    (h1 : CleanStackNeedsP2SH F1) (hstack : hasFlag F1 SCRIPT_VERIFY_P2SH = true → stack' = stack)
    (h : checkCleanStack stack F2 = .ok (.ok ())) : checkCleanStack stack' F1 = .ok (.ok ()) := by
  unfold checkCleanStack at h ⊢
  by_cases hclean : hasFlag F1 SCRIPT_VERIFY_CLEANSTACK = true
  · have hp2sh := h1 hclean
    rw [hstack hp2sh,hclean,hp2sh]
    rw [hF.hasFlag hclean,hF.hasFlag hp2sh] at h
    exact h
  · rw [Bool.eq_false_iff.mpr hclean]
    rfl

/-- Dropping flags never makes a verification fail. -/
theorem Verifies.softFork {scriptSig scriptPubKey : CScript} (h1 : CleanStackNeedsP2SH F1)
    (h : Verifies scriptSig scriptPubKey F2 checker) :
    Verifies scriptSig scriptPubKey F1 checker := by
  unfold Verifies verifyScript at *
  have hpush : ¬ (hasFlag F2 SCRIPT_VERIFY_SIGPUSHONLY && !scriptSig.isPushOnly) = true := by
    intro hp
    rw [if_pos hp] at h
    cases h
  rw [if_neg hpush] at h
  have hpush1 : ¬ (hasFlag F1 SCRIPT_VERIFY_SIGPUSHONLY && !scriptSig.isPushOnly) = true := by
    intro hp
    rw [Bool.and_eq_true] at hp hpush
    exact hpush (And.imp_left hF.hasFlag hp)
  rw [if_neg hpush1]
  cases hstack : verifyStack scriptSig scriptPubKey F2 checker with
  | error e => simp [hstack] at h
  | ok result =>
    cases result with
    | error e => simp [hstack] at h
    | ok stack =>
      rw [hstack] at h
      obtain ⟨stack',hstack',hsame⟩ := verifyStack_softFork hF hnops checker hstack
      rw [hstack']
      exact checkCleanStack_softFork hF h1 hsame h

end
end Sidechain
