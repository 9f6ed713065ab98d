import Sidechain.Script.Access

/-! The checks of the interpreter suffice: the version with every access written out has no faults
and computes what the pattern matches of the interpreter say. -/
namespace Sidechain
open Guarded

/-- A number that was read from at most five bytes. -/
def ShortNum (bn : CScriptNum) : Prop := -2^40 < bn ∧ bn < 2^40

theorem setVch_bound (vch : valtype) :
    -(256^vch.length : ℤ) < CScriptNum.setVch vch ∧ CScriptNum.setVch vch < 256^vch.length := by
  have hbound : ∀ bs : Bytes, (ofLeBytes bs : ℤ) < 256^bs.length := fun bs => by
    exact_mod_cast ofLeBytes_lt bs
  unfold CScriptNum.setVch
  cases hlast : vch.getLast? with
  | none =>
    have hpos : (0 : ℤ) < 256^vch.length := by positivity
    constructor <;> dsimp only <;> linarith
  | some msb =>
    dsimp only
    have hne : vch ≠ [] := by
      rintro rfl
      cases hlast
    have hlength : (vch.dropLast ++ [msb &&& 0x7f]).length = vch.length := by
      have := List.length_pos_iff.mpr hne
      simp only [List.length_append,List.length_dropLast,List.length_singleton]
      omega
    have hneg := hbound (vch.dropLast ++ [msb &&& 0x7f])
    rw [hlength] at hneg
    have hpos := hbound vch
    split_ifs <;> constructor <;> linarith [Int.natCast_nonneg (ofLeBytes vch),
      Int.natCast_nonneg (ofLeBytes (vch.dropLast ++ [msb &&& 0x7f]))]

theorem ofVch_ok {fRequireMinimal : Bool} {n : ℕ} {vch : valtype} {bn : CScriptNum}
    (h : CScriptNum.ofVch fRequireMinimal n vch = .ok bn) : vch.length ≤ n ∧
      bn = CScriptNum.setVch vch := by
  unfold CScriptNum.ofVch at h
  split_ifs at h with hn
  exact ⟨not_lt.mp hn,(Except.ok.inj h).symm⟩

theorem ofVch_short {fRequireMinimal : Bool} {n : ℕ} {vch : valtype} {bn : CScriptNum}
    (hn : n ≤ 5) (h : CScriptNum.ofVch fRequireMinimal n vch = .ok bn) : ShortNum bn := by
  obtain ⟨hlength,rfl⟩ := ofVch_ok h
  obtain ⟨hlow,hhigh⟩ := setVch_bound vch
  have hpow : (256^vch.length : ℤ) ≤ 256^5 :=
    pow_le_pow_right₀ (by norm_num) (hlength.trans hn)
  norm_num at hpow
  constructor <;> linarith

theorem ofVchAt_eq (fRequireMinimal : Bool) {n : ℕ} (hn : n ≤ 5) (vch : valtype) :
    CScriptNum.ofVchAt fRequireMinimal n vch = lift (CScriptNum.ofVch fRequireMinimal n vch) := by
  unfold CScriptNum.ofVchAt
  cases h : CScriptNum.ofVch fRequireMinimal n vch with
  | error e => rfl
  | ok bn =>
    have hlt : ofLeBytes vch < 2^63 := calc
      ofLeBytes vch < 256^vch.length := ofLeBytes_lt vch
      _ ≤ 256^5 := Nat.pow_le_pow_right (by norm_num) ((ofVch_ok h).1.trans hn)
      _ < 2^63 := by norm_num
    rw [lift_ok,ok_bind,ensure_true hlt,ok_bind]

/-- Results stay far from the ends of int64. -/
def MidNum (bn : CScriptNum) : Prop := -2^42 < bn ∧ bn < 2^42

theorem getvch_eq {bn : CScriptNum} (h : MidNum bn) : bn.getvch = .ok bn.serialize := by
  unfold CScriptNum.getvch
  rw [ensure_true,ok_bind]
  rintro rfl
  have := h.1
  norm_num [CScriptNum.int64Min] at this

theorem ofInt64_eq {bn : ℤ} (h : MidNum bn) (what : String) :
    CScriptNum.ofInt64 bn what = .ok bn := by
  unfold CScriptNum.ofInt64
  rw [ensure_true,ok_bind]
  obtain ⟨h1,h2⟩ := h
  unfold CScriptNum.int64Min CScriptNum.int64Max
  constructor <;> linarith

theorem midNum_ofBool (b : Bool) : MidNum (ofBool b) := by
  cases b <;> constructor <;> norm_num [ofBool]

section
variable {a b : CScriptNum} (ha : ShortNum a) (hb : ShortNum b)
include ha

theorem ShortNum.mid : MidNum a := ⟨by linarith [ha.1],by linarith [ha.2]⟩

theorem negAt_eq : a.negAt = .ok (-a) ∧ MidNum (-a) := by
  have hmid : MidNum (-a) := ⟨by linarith [ha.2],by linarith [ha.1]⟩
  refine ⟨?_,hmid⟩
  unfold CScriptNum.negAt
  rw [ensure_true,ok_bind,ofInt64_eq hmid]
  rintro rfl
  have := ha.1
  norm_num [CScriptNum.int64Min] at this

theorem addAssign_one : a.addAssign 1 = .ok (a + 1) ∧ MidNum (a + 1) := by
  have hmid : MidNum (a + 1) := ⟨by linarith [ha.1],by linarith [ha.2]⟩
  refine ⟨?_,hmid⟩
  unfold CScriptNum.addAssign
  rw [ensure_true,ok_bind,ofInt64_eq hmid]
  refine Or.inr (Or.inl ⟨by norm_num,?_⟩)
  unfold CScriptNum.int64Max
  linarith [ha.2]

theorem subAssign_one : a.subAssign 1 = .ok (a - 1) ∧ MidNum (a - 1) := by
  have hmid : MidNum (a - 1) := ⟨by linarith [ha.1],by linarith [ha.2]⟩
  refine ⟨?_,hmid⟩
  unfold CScriptNum.subAssign
  rw [ensure_true,ok_bind,ofInt64_eq hmid]
  refine Or.inr (Or.inl ⟨by norm_num,?_⟩)
  unfold CScriptNum.int64Min
  linarith [ha.1]

include hb

theorem addNum_eq : a.add b = .ok (a + b) ∧ MidNum (a + b) := by
  have hmid : MidNum (a + b) := ⟨by linarith [ha.1,hb.1],by linarith [ha.2,hb.2]⟩
  exact ⟨ofInt64_eq hmid _,hmid⟩

theorem subNum_eq : a.sub b = .ok (a - b) ∧ MidNum (a - b) := by
  have hmid : MidNum (a - b) := ⟨by linarith [ha.1,hb.2],by linarith [ha.2,hb.1]⟩
  exact ⟨ofInt64_eq hmid _,hmid⟩

end

@[simp] theorem needSize_zero (stack : List valtype) (e : ScriptError) :
    needSize stack 0 e = .ok () := rfl

@[simp] theorem needSize_nil (n : ℕ) (e : ScriptError) : needSize [] (n + 1) e = fail e := rfl

@[simp] theorem needSize_cons (x : valtype) (stack : List valtype) (n : ℕ) (e : ScriptError) :
    needSize (x::stack) (n + 1) e = needSize stack n e := by
  unfold needSize
  simp only [List.length_cons,Nat.add_lt_add_iff_right]

theorem getvch_size (n : ℕ) : CScriptNum.getvch n = .ok (CScriptNum.serialize n) := by
  unfold CScriptNum.getvch
  rw [ensure_true,ok_bind]
  unfold CScriptNum.int64Min
  have := Int.natCast_nonneg n
  intro h
  linarith

/-- Splits off as many elements as any operation looks at. -/
theorem evalStackOpAt_eq (opcode : UInt8) (stack : List valtype) :
    evalStackOpAt opcode stack = lift (evalStackOp opcode stack) := by
  unfold evalStackOpAt evalStackOp
  repeat' refine ite_eq_lift (fun _ => ?_) fun _ => ?_
  all_goals
    try rw [getvch_size]
    rcases stack with _ | ⟨x1,_ | ⟨x2,_ | ⟨x3,_ | ⟨x4,_ | ⟨x5,_ | ⟨x6,s⟩⟩⟩⟩⟩⟩ <;>
    simp [stacktop,popstack,swapTops,eraseTop,eraseTops,insertTop,getvch_size]

theorem evalPickRollAt_eq (fRequireMinimal roll : Bool) (stack : List valtype) :
    evalPickRollAt fRequireMinimal roll stack = lift (evalPickRoll fRequireMinimal roll stack) := by
  unfold evalPickRollAt evalPickRoll
  rcases stack with _ | ⟨x,_ | ⟨y,s⟩⟩
  · rfl
  · rfl
  simp only [needSize_cons,needSize_zero,stacktop,top_one_cons,popstack,pop_cons,ok_bind]
  refine bind_eq_lift (ofVchAt_eq _ (by decide) x) fun bn _ => ?_
  refine ite_eq_lift (fun _ => rfl) fun hn => ?_
  have hlt : bn.getint.toNat < (y::s).length := by omega
  have hget := List.getElem?_eq_getElem hlt
  rw [top_of_getElem? hget,ok_bind,List.getD_eq_getElem?_getD,hget]
  cases roll with
  | false => rfl
  | true =>
    unfold eraseTop
    rw [if_pos rfl,ensure_true ⟨by omega,hlt⟩]
    rfl

section
variable {fRequireMinimal : Bool}

/-- The result of the operation is pushed without a fault. -/
theorem evalUnaryAt_eq {f : CScriptNum → Checked CScriptNum} {f' : CScriptNum → CScriptNum}
    (hf : ∀ bn, ShortNum bn → f bn = .ok (f' bn) ∧ MidNum (f' bn)) (stack : List valtype) :
    evalUnaryAt fRequireMinimal f stack = lift (evalUnary fRequireMinimal f' stack) := by
  unfold evalUnaryAt evalUnary
  rcases stack with _ | ⟨x,s⟩
  · rfl
  simp only [needSize_cons,needSize_zero,stacktop,top_one_cons,popstack,pop_cons,ok_bind]
  refine bind_eq_lift (ofVchAt_eq _ (by decide) x) fun bn hbn => ?_
  obtain ⟨hok,hmid⟩ := hf bn (ofVch_short (by decide) hbn)
  rw [hok,ok_bind,getvch_eq hmid]
  rfl

theorem evalBinaryAt_eq {f : CScriptNum → CScriptNum → Checked CScriptNum}
    {f' : CScriptNum → CScriptNum → CScriptNum}
    (hf : ∀ bn1 bn2, ShortNum bn1 → ShortNum bn2 →
      f bn1 bn2 = .ok (f' bn1 bn2) ∧ MidNum (f' bn1 bn2)) (stack : List valtype) :
    evalBinaryAt fRequireMinimal f stack = lift (evalBinary fRequireMinimal f' stack) := by
  unfold evalBinaryAt evalBinary
  rcases stack with _ | ⟨x2,_ | ⟨x1,s⟩⟩
  · rfl
  · rfl
  simp only [needSize_cons,needSize_zero,stacktop,top_succ_cons,top_one_cons,popstack,pop_cons,
    ok_bind]
  refine bind_eq_lift (ofVchAt_eq _ (by decide) x1) fun bn1 hbn1 => ?_
  refine bind_eq_lift (ofVchAt_eq _ (by decide) x2) fun bn2 hbn2 => ?_
  obtain ⟨hok,hmid⟩ := hf bn1 bn2 (ofVch_short (by decide) hbn1) (ofVch_short (by decide) hbn2)
  rw [hok,ok_bind,getvch_eq hmid]
  rfl

theorem evalCompareAt_eq (f : CScriptNum → CScriptNum → Bool) (stack : List valtype) :
    evalBinaryAt fRequireMinimal (fun bn1 bn2 => .ok (ofBool (f bn1 bn2))) stack =
      lift (evalBinary fRequireMinimal (fun bn1 bn2 => ofBool (f bn1 bn2)) stack) :=
  evalBinaryAt_eq (fun _ _ _ _ => ⟨rfl,midNum_ofBool _⟩) stack

theorem evalWithinAt_eq (stack : List valtype) :
    evalWithinAt fRequireMinimal stack = lift (evalWithin fRequireMinimal stack) := by
  unfold evalWithinAt evalWithin
  rcases stack with _ | ⟨x3,_ | ⟨x2,_ | ⟨x1,s⟩⟩⟩
  · rfl
  · rfl
  · rfl
  simp only [needSize_cons,needSize_zero,stacktop,top_succ_cons,top_one_cons,ok_bind]
  refine bind_eq_lift (ofVchAt_eq _ (by decide) x1) fun bn1 _ => ?_
  refine bind_eq_lift (ofVchAt_eq _ (by decide) x2) fun bn2 _ => ?_
  exact bind_eq_lift (ofVchAt_eq _ (by decide) x3) fun bn3 _ => rfl

theorem pushAnswer_eq (isVerify fSuccess : Bool) (failure : ScriptError) (stack : List valtype) :
    pushAnswer isVerify fSuccess failure stack = lift (verifyTop isVerify fSuccess failure stack) :=
  ite_eq_lift (fun _ => ite_eq_lift (fun _ => rfl) fun _ => rfl) fun _ => rfl

theorem popTrueAt_cons (failure : ScriptError) (x : valtype) (stack : List valtype) :
    popTrueAt failure (x::stack) = lift (popTrue failure (x::stack)) :=
  ite_eq_lift (fun _ => rfl) fun _ => rfl

theorem evalVerifyAt_eq (stack : List valtype) :
    evalVerifyAt stack = lift (popTrue .verify stack) := by
  cases stack with
  | nil => rfl
  | cons x s => exact popTrueAt_cons _ x s

theorem evalEqualAt_eq (isVerify : Bool) (stack : List valtype) :
    evalEqualAt isVerify stack = lift (evalEqual isVerify stack) := by
  rcases stack with _ | ⟨x2,_ | ⟨x1,s⟩⟩
  · rfl
  · rfl
  · exact pushAnswer_eq _ _ _ s

theorem evalHashAt_eq (hash : valtype → valtype) (stack : List valtype) :
    evalHashAt hash stack = lift (evalHash hash stack) := by
  cases stack <;> rfl

theorem evalNumericOpAt_eq (opcode : UInt8) (stack : List valtype) :
    evalNumericOpAt fRequireMinimal opcode stack =
      lift (evalNumericOp fRequireMinimal opcode stack) := by
  have hite : ∀ {c : Prop} [Decidable c] {a b : CScriptNum}, ShortNum a → ShortNum b →
      MidNum (if c then a else b) := by
    intro c _ a b ha hb
    split_ifs
    · exact ha.mid
    · exact hb.mid
  unfold evalNumericOpAt evalNumericOp
  repeat' refine ite_eq_lift (fun _ => ?_) fun _ => ?_
  · exact evalUnaryAt_eq (fun _ => addAssign_one) stack
  · exact evalUnaryAt_eq (fun _ => subAssign_one) stack
  · exact evalUnaryAt_eq (fun _ => negAt_eq) stack
  · refine evalUnaryAt_eq (fun bn hbn => ?_) stack
    split_ifs
    · exact negAt_eq hbn
    · exact ⟨rfl,hbn.mid⟩
  · exact evalUnaryAt_eq (fun _ _ => ⟨rfl,midNum_ofBool _⟩) stack
  · exact evalUnaryAt_eq (fun _ _ => ⟨rfl,midNum_ofBool _⟩) stack
  · exact evalBinaryAt_eq (fun _ _ => addNum_eq) stack
  · exact evalBinaryAt_eq (fun _ _ => subNum_eq) stack
  · exact evalCompareAt_eq _ stack
  · exact evalCompareAt_eq _ stack
  · exact evalCompareAt_eq _ stack
  · refine bind_eq_lift (evalCompareAt_eq _ stack) fun s hs => ?_
    cases s with
    | nil =>
      -- the result has been pushed
      unfold evalBinary at hs
      split at hs
      · obtain ⟨_,_,hs⟩ := Run.bind_ok.mp hs
        obtain ⟨_,_,hs⟩ := Run.bind_ok.mp hs
        cases hs
      · cases hs
    | cons x s => exact popTrueAt_cons _ x s
  iterate 5 exact evalCompareAt_eq _ stack
  · exact evalBinaryAt_eq (fun _ _ h1 h2 => ⟨rfl,hite h1 h2⟩) stack
  · exact evalBinaryAt_eq (fun _ _ h1 h2 => ⟨rfl,hite h1 h2⟩) stack
  · exact evalWithinAt_eq stack
  · rfl

theorem readLockTimeAt_eq (stack : List valtype) :
    readLockTimeAt fRequireMinimal stack = lift (readLockTime fRequireMinimal stack) := by
  cases stack with
  | nil => rfl
  | cons x s =>
    exact bind_eq_lift (ofVchAt_eq _ le_rfl x) fun n _ => ite_eq_lift (fun _ => rfl) fun _ => rfl

end

theorem evalCheckLockTimeVerifyAt_eq (flags : ScriptFlags) (checker : BaseSignatureChecker)
    (m : Machine) : evalCheckLockTimeVerifyAt flags checker m =
      lift (evalCheckLockTimeVerify flags checker m) :=
  ite_eq_lift (fun _ => rfl) fun _ => bind_eq_lift (readLockTimeAt_eq m.stack) fun _ _ =>
    ite_eq_lift (fun _ => rfl) fun _ => rfl

theorem evalCheckSequenceVerifyAt_eq (flags : ScriptFlags) (checker : BaseSignatureChecker)
    (m : Machine) : evalCheckSequenceVerifyAt flags checker m =
      lift (evalCheckSequenceVerify flags checker m) :=
  ite_eq_lift (fun _ => rfl) fun _ => bind_eq_lift (readLockTimeAt_eq m.stack) fun _ _ =>
    ite_eq_lift (fun _ => rfl) fun _ => ite_eq_lift (fun _ => rfl) fun _ => rfl

theorem evalIfAt_eq (notif : Bool) (m : Machine) : evalIfAt notif m = lift (evalIf notif m) := by
  refine ite_eq_lift (fun _ => ?_) fun _ => rfl
  cases m.stack <;> rfl

theorem evalElseAt_eq (m : Machine) : evalElseAt m = lift (evalElse m) := by
  unfold evalElseAt evalElse
  cases m.vfExec <;> rfl

theorem evalEndifAt_eq (m : Machine) : evalEndifAt m = lift (evalEndif m) := by
  unfold evalEndifAt evalEndif
  cases m.vfExec <;> rfl

theorem evalToAltstackAt_eq (m : Machine) : evalToAltstackAt m = lift (evalToAltstack m) := by
  unfold evalToAltstackAt evalToAltstack
  cases m.stack <;> rfl

theorem evalFromAltstackAt_eq (m : Machine) :
    evalFromAltstackAt m = lift (evalFromAltstack m) := by
  unfold evalFromAltstackAt evalFromAltstack
  cases m.altstack <;> rfl

theorem onStackAt_eq {f : List valtype → Checked (List valtype)} {f' : List valtype → StackResult}
    {m : Machine} (hf : f m.stack = lift (f' m.stack)) : onStackAt f m = lift (onStack f' m) :=
  bind_eq_lift hf fun _ _ => rfl

end Sidechain
