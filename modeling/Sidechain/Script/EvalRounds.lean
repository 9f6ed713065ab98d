import Sidechain.Script.EvalSafe

/-! Signature operations, whose positions on the stack are computed, and the rounds of
`EvalScript`: none of them has a fault. -/
namespace Sidechain
open Guarded

theorem getElem?_of_isPrefix {a : valtype} {group stack : List valtype} {i : ℕ}
    (h : a::group <+: stack.drop i) : stack[i]? = some a ∧ group <+: stack.drop (i + 1) := by
  obtain ⟨rest,hrest⟩ := h
  have hhead := congrArg List.head? hrest
  have htail := congrArg List.tail hrest
  rw [List.head?_drop] at hhead
  rw [List.tail_drop] at htail
  exact ⟨hhead.symm,rest,htail⟩

/-- A loop over positions visits the elements of a group in order. -/
theorem foldlM_stacktop (f : CScript → valtype → CScript) {group stack : List valtype} {i : ℕ}
    (h : group <+: stack.drop i) (code : CScript) :
    (List.range group.length).foldlM (fun code k => do
      let vch ← stacktop stack (i + 1 + k)
      (.ok (f code vch) : Checked CScript)) code = .ok (group.foldl f code) := by
  induction group generalizing i code with
  | nil => rfl
  | cons a group ih =>
    obtain ⟨hget,hgroup⟩ := getElem?_of_isPrefix h
    rw [List.length_cons,List.range_succ_eq_map,List.foldlM_cons]
    have hhead : stacktop stack (i + 1 + 0) = .ok a := top_of_getElem? hget
    rw [hhead,ok_bind,ok_bind,List.foldlM_map,List.foldl_cons,← ih hgroup]
    congr 1
    funext code k
    rw [show i + 1 + k.succ = i + 1 + 1 + k by omega]

theorem takeGroup_eq {n : ℕ} {stack : List valtype} (h : n < stack.length) :
    takeGroup n stack = .ok (stack.take n,stack[n],stack.drop (n + 1)) := by
  unfold takeGroup
  rw [List.drop_eq_getElem_cons h]

theorem takeGroup_fail {n : ℕ} {stack : List valtype} (h : stack.length ≤ n) :
    takeGroup n stack = .error .invalidStackOperation := by
  unfold takeGroup
  rw [List.drop_eq_nil_of_le h]

theorem needSize_of_le {n : ℕ} {stack : List valtype} (h : n ≤ stack.length) (e : ScriptError) :
    needSize stack n e = .ok () := if_neg (not_lt.mpr h)

theorem needSize_of_lt {n : ℕ} {stack : List valtype} (h : stack.length < n) (e : ScriptError) :
    needSize stack n e = fail e := if_pos h

theorem readCountAt_eq (fRequireMinimal : Bool) (most : ℕ) (failure : ScriptError)
    {stack : List valtype} {i : ℕ} {x : valtype} (hget : stack[i]? = some x) :
    readCountAt fRequireMinimal most failure stack (i + 1) =
      lift (readCount fRequireMinimal most failure x) := by
  have htop : stacktop stack (i + 1) = .ok x := top_of_getElem? hget
  unfold readCountAt
  rw [htop,ok_bind]
  exact bind_eq_lift (ofVchAt_eq _ (by decide) x) fun bn _ =>
    ite_eq_lift (fun _ => rfl) fun _ => rfl

section
variable [Crypto] (flags : ScriptFlags) (checker : BaseSignatureChecker)

theorem evalCheckSigAt_eq (isVerify : Bool) (m : Machine) :
    evalCheckSigAt isVerify flags checker m = lift (evalCheckSig isVerify flags checker m) := by
  unfold evalCheckSigAt evalCheckSig
  rcases m.stack with _ | ⟨vchPubKey,_ | ⟨vchSig,s⟩⟩
  · rfl
  · rfl
  simp only [needSize_cons,needSize_zero,stacktop,top_succ_cons,top_one_cons,ok_bind]
  refine bind_eq_lift rfl fun _ _ => ?_
  change (pushAnswer isVerify _ _ s >>= _) = _
  exact bind_eq_lift (pushAnswer_eq isVerify _ _ s) fun _ _ => rfl

/-- The loop reads one group of signatures and one of keys; there are never more of the former. -/
theorem multiSigLoopAt_eq (scriptCode : CScript) {stack sigs keys : List valtype}
    {isig ikey fuel : ℕ} (hsigs : sigs <+: stack.drop isig) (hkeys : keys <+: stack.drop ikey)
    (hle : sigs.length ≤ keys.length) (hfuel : keys.length < fuel) :
    multiSigLoopAt flags checker scriptCode stack fuel (isig + 1) (ikey + 1) sigs.length
      keys.length = lift (multiSigLoop flags checker scriptCode sigs keys) := by
  induction keys generalizing sigs isig ikey fuel with
  | nil =>
    obtain rfl : sigs = [] := List.length_eq_zero_iff.mp (Nat.le_zero.mp hle)
    cases fuel with
    | zero => simp at hfuel
    | succ fuel => rfl
  | cons key keys ih =>
    cases fuel with
    | zero => simp at hfuel
    | succ fuel =>
      cases sigs with
      | nil => rfl
      | cons sig sigs =>
        obtain ⟨hsig,hsigs'⟩ := getElem?_of_isPrefix hsigs
        obtain ⟨hkey,hkeys'⟩ := getElem?_of_isPrefix hkeys
        have hfuel' : keys.length < fuel := by simpa using hfuel
        have hsigtop : stacktop stack (isig + 1) = .ok sig := top_of_getElem? hsig
        have hkeytop : stacktop stack (ikey + 1) = .ok key := top_of_getElem? hkey
        have hpos : ((sig::sigs).length : ℤ) > 0 := by simp
        have hone : ∀ (a : valtype) (l : List valtype), ((a::l).length : ℤ) - 1 = l.length := by
          simp
        rw [multiSigLoopAt,multiSigLoop,if_pos hpos,hsigtop,ok_bind,hkeytop,ok_bind]
        refine bind_eq_lift rfl fun _ _ => ?_
        by_cases hok : checker.checkSig sig key scriptCode = true
        · simp only [hok,if_true,hone]
          refine ite_eq_lift' (by omega) (fun _ => rfl) fun hgt => ?_
          exact ih hsigs' hkeys' (not_lt.mp hgt) hfuel'
        · simp only [hok,Bool.false_eq_true,if_false,hone]
          refine ite_eq_lift' (by omega) (fun _ => rfl) fun hgt => ?_
          exact ih hsigs hkeys' (not_lt.mp hgt) hfuel'

theorem evalCheckMultiSigAt_eq (isVerify : Bool) (m : Machine) :
    evalCheckMultiSigAt isVerify flags checker m =
      lift (evalCheckMultiSig isVerify flags checker m) := by
  unfold evalCheckMultiSigAt evalCheckMultiSig
  dsimp only
  rcases hstack : m.stack with _ | ⟨vchKeysCount,s⟩
  · rfl
  dsimp only
  rw [needSize_cons,needSize_zero,ok_bind]
  refine bind_eq_lift (readCountAt_eq _ _ _ rfl) fun nKeysCount _ => ?_
  refine ite_eq_lift (fun _ => rfl) fun _ => ?_
  have hcons : (vchKeysCount::s).length = s.length + 1 := rfl
  rcases Nat.lt_or_ge nKeysCount s.length with hkeys | hkeys
  swap
  · rw [needSize_of_lt (by omega),takeGroup_fail hkeys]
    rfl
  have hcount : (vchKeysCount::s)[nKeysCount + 1]? = some s[nKeysCount] := by
    rw [List.getElem?_cons_succ]
    exact List.getElem?_eq_getElem hkeys
  rw [needSize_of_le (by omega),takeGroup_eq hkeys,ok_bind]
  change _ = lift (readCount _ _ _ _ >>= _)
  rw [show 1 + 1 + nKeysCount = nKeysCount + 1 + 1 by omega]
  refine bind_eq_lift (readCountAt_eq _ _ _ hcount) fun nSigsCount hsigs => ?_
  have hle := readCount_le hsigs
  set below := s.drop (nKeysCount + 1) with hbelow
  have hlength : below.length = s.length - (nKeysCount + 1) := List.length_drop
  rcases Nat.lt_or_ge nSigsCount below.length with hdummy | hdummy
  swap
  · rw [needSize_of_lt (by omega),takeGroup_fail hdummy]
    rfl
  rw [needSize_of_le (by omega),takeGroup_eq hdummy,ok_bind]
  change _ = lift (multiSigLoop _ _ _ _ _ >>= _)
  have hkeysGroup : s.take nKeysCount <+: (vchKeysCount::s).drop 1 := List.take_prefix _ _
  have hsigsGroup : below.take nSigsCount <+: (vchKeysCount::s).drop (nKeysCount + 2) :=
    List.take_prefix _ _
  have hkeysLength : (s.take nKeysCount).length = nKeysCount := by
    rw [List.length_take]
    omega
  have hsigsLength : (below.take nSigsCount).length = nSigsCount := by
    rw [List.length_take]
    omega
  have hcode := foldlM_stacktop (fun code sig => code.findAndDelete (pushData sig)) hsigsGroup
    m.pbegincodehash
  rw [hsigsLength] at hcode
  rw [show nKeysCount + 1 + 1 + 1 = nKeysCount + 2 + 1 by omega,hcode,ok_bind]
  have hloop := multiSigLoopAt_eq flags checker ((below.take nSigsCount).foldl
    (fun code sig => code.findAndDelete (pushData sig)) m.pbegincodehash) hsigsGroup hkeysGroup
    (by omega) (Nat.lt_succ_self _)
  rw [hsigsLength,hkeysLength] at hloop
  refine bind_eq_lift hloop fun fSuccess _ => ?_
  have hdrop : (vchKeysCount::s).drop (nKeysCount + 2 + 1 + nSigsCount - 1) =
      below[nSigsCount]::below.drop (nSigsCount + 1) := by
    rw [← List.drop_eq_getElem_cons hdummy,hbelow,List.drop_drop,
      show nKeysCount + 2 + 1 + nSigsCount - 1 = nKeysCount + 1 + nSigsCount + 1 by omega,
      List.drop_succ_cons]
  rw [popTimes_eq_drop (by omega),hdrop]
  simp only [needSize_cons,needSize_zero,stacktop,top_one_cons,popstack,pop_cons,ok_bind]
  refine ite_eq_lift (fun _ => rfl) fun _ => ?_
  exact bind_eq_lift (pushAnswer_eq isVerify _ _ _) fun _ _ => rfl

theorem evalOpcodeAt_eq (opcode : UInt8) (pc : CScript) (m : Machine) :
    evalOpcodeAt flags checker opcode pc m = lift (evalOpcode flags checker opcode pc m) := by
  unfold evalOpcodeAt evalOpcode
  dsimp only
  refine ite_eq_lift (fun _ => ?_) fun _ => ?_
  · have hmid : MidNum ((opcode.toNat : ℤ) - 0x50) := by
      have hlt : (opcode.toNat : ℤ) < 2^8 := by exact_mod_cast opcode.toNat_lt
      have hpos := Int.natCast_nonneg opcode.toNat
      constructor <;> linarith
    rw [getvch_eq hmid]
    rfl
  repeat' with_reducible refine ite_eq_lift (fun _ => ?_) fun _ => ?_
  all_goals first
    | rfl
    | exact evalCheckLockTimeVerifyAt_eq flags checker m
    | exact evalCheckSequenceVerifyAt_eq flags checker m
    | exact evalIfAt_eq _ m
    | exact evalElseAt_eq m
    | exact evalEndifAt_eq m
    | exact evalToAltstackAt_eq m
    | exact evalFromAltstackAt_eq m
    | exact evalCheckSigAt_eq flags checker _ m
    | exact evalCheckMultiSigAt_eq flags checker _ m
    | exact onStackAt_eq (evalVerifyAt_eq _)
    | exact onStackAt_eq (evalPickRollAt_eq _ _ _)
    | exact onStackAt_eq (evalEqualAt_eq _ _)
    | exact onStackAt_eq (evalNumericOpAt_eq _ _)
    | exact onStackAt_eq (evalHashAt_eq _ _)
    | exact onStackAt_eq (evalStackOpAt_eq _ _)

theorem execOpAt_eq (op : ScriptOp) (m : Machine) :
    execOpAt flags checker op m = lift (execOp flags checker op m) :=
  ite_eq_lift (fun _ => ite_eq_lift (fun _ => rfl) fun _ => rfl) fun _ =>
    ite_eq_lift (fun _ => evalOpcodeAt_eq flags checker _ _ m) fun _ => rfl

theorem evalStepAt_eq (op : ScriptOp) (m : Machine) :
    evalStepAt flags checker op m = lift (evalStep flags checker op m) :=
  ite_eq_lift (fun _ => rfl) fun _ => bind_eq_lift rfl fun m _ => ite_eq_lift (fun _ => rfl)
    fun _ => bind_eq_lift (execOpAt_eq flags checker op m) fun _ _ => rfl

/-- A script's length is fuel enough, as every round consumes a byte. -/
theorem evalLoopAt_eq {fuel : ℕ} {pc : CScript} (hfuel : pc.length ≤ fuel) (m : Machine) :
    evalLoopAt flags checker fuel pc m = lift (evalLoop flags checker fuel pc m) := by
  unfold evalLoopAt
  induction fuel generalizing pc m with
  | zero =>
    obtain rfl : pc = [] := List.length_eq_zero_iff.mp (Nat.le_zero.mp hfuel)
    rfl
  | succ fuel ih =>
    rw [evalRoundsAt,evalLoop]
    by_cases hpc : pc.isEmpty = true
    · rw [if_pos hpc,if_pos hpc,ok_bind]
      dsimp only
      rw [ensure_true hpc,ok_bind,lift_ok]
    · rw [if_neg hpc,if_neg hpc]
      cases hop : getOp pc with
      | none => rfl
      | some op =>
        dsimp only
        rw [evalStepAt_eq,bind_assoc]
        refine bind_eq_lift rfl fun m' _ => ih ?_ m'
        have := getOp_shorter hop
        omega

theorem evalScriptAt_eq (stack : List valtype) (script : CScript) :
    evalScriptAt stack script flags checker = lift (evalScript stack script flags checker) :=
  ite_eq_lift (fun _ => rfl) fun _ => bind_eq_lift (evalLoopAt_eq flags checker le_rfl _)
    fun _ _ => ite_eq_lift (fun _ => rfl) fun _ => rfl

theorem evalTrueAt_eq (stack : List valtype) (script : CScript) :
    evalTrueAt stack script flags checker = lift (evalTrue stack script flags checker) := by
  refine bind_eq_lift (evalScriptAt_eq flags checker stack script) fun stack _ => ?_
  cases stack with
  | nil => rfl
  | cons x s =>
    change (if castToBool x then _ else _) = lift (if castToBool x then _ else _)
    exact ite_eq_lift (fun _ => rfl) fun _ => rfl

end
end Sidechain
