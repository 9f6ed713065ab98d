import Sidechain.Script.PushScript
import Sidechain.Script.SolverAnswer

/-! Running a multisignature script: the operations it consists of, and the stacks it accepts. -/
namespace Sidechain
open Run

section
variable [Crypto] {flags : ScriptFlags} {checker : BaseSignatureChecker}

omit [Crypto] in
theorem readCount_serialize (fRequireMinimal : Bool) {n most : ℕ} (hn : n ≤ 16) (hle : n ≤ most)
    (failure : ScriptError) :
    readCount fRequireMinimal most failure (CScriptNum.serialize n) = .ok n := by
  have hread : CScriptNum.ofVch fRequireMinimal nDefaultMaxNumSize (CScriptNum.serialize n) =
      .ok (n : ℤ) := by
    interval_cases n <;> cases fRequireMinimal <;> decide
  have hint : CScriptNum.getint (n : ℤ) = n := by
    unfold CScriptNum.getint
    omega
  refine bind_ok.mpr ⟨_,hread,?_⟩
  dsimp only
  rw [hint,if_neg (by omega),Int.toNat_natCast]

omit [Crypto] in
theorem takeGroup_ok {n : ℕ} {stack group rest : List valtype} {x : valtype} :
    takeGroup n stack = .ok (group,x,rest) ↔ stack = group ++ x::rest ∧ group.length = n := by
  unfold takeGroup
  constructor
  · intro h
    cases hdrop : stack.drop n with
    | nil =>
      rw [hdrop] at h
      cases h
    | cons y s =>
      rw [hdrop] at h
      cases h
      have hlt : n < stack.length := by
        by_contra hge
        rw [List.drop_eq_nil_of_le (not_lt.mp hge)] at hdrop
        cases hdrop
      refine ⟨?_,List.length_take_of_le hlt.le⟩
      rw [← hdrop,List.take_append_drop]
  · rintro ⟨rfl,rfl⟩
    rw [List.drop_left,List.take_left]

/-- What `OP_CHECKMULTISIG` does to its arguments: the signatures, and a value below them that is
dropped. -/
theorem evalCheckMultiSig_ok {m m' : Machine} {keys S : List valtype} {k : ℕ}
    (hstack : m.stack = CScriptNum.serialize keys.length :: (keys ++ CScriptNum.serialize k :: S))
    (hn : keys.length ≤ 16) (hk : k ≤ keys.length) (hcount : m.nOpCount = 1) :
    evalCheckMultiSig false flags checker m = .ok m' ↔
      ∃ sigs dummy rest b, S = sigs ++ dummy::rest ∧ sigs.length = k ∧
        multiSigLoop flags checker
          (sigs.foldl (fun code sig => code.findAndDelete (pushData sig)) m.pbegincodehash)
          sigs keys = .ok b ∧
        (hasFlag flags SCRIPT_VERIFY_NULLDUMMY → dummy = []) ∧
        m' = { m with stack := vchBool b :: rest, nOpCount := 1 + keys.length } := by
  have hops : ¬ 1 + keys.length > MAX_OPS_PER_SCRIPT := by
    unfold MAX_OPS_PER_SCRIPT
    omega
  have hgroup : takeGroup keys.length (keys ++ CScriptNum.serialize k :: S) =
      .ok (keys,CScriptNum.serialize k,S) := takeGroup_ok.mpr ⟨rfl,rfl⟩
  unfold evalCheckMultiSig
  rw [hstack,hcount]
  dsimp only
  rw [readCount_serialize _ hn (hn.trans (by decide))]
  change (if 1 + keys.length > MAX_OPS_PER_SCRIPT then _ else _) = _ ↔ _
  rw [if_neg hops,hgroup]
  change (readCount _ _ _ _ >>= _) = _ ↔ _
  rw [readCount_serialize _ (hk.trans hn) hk]
  change (takeGroup k S >>= _) = _ ↔ _
  rw [bind_ok]
  constructor
  · rintro ⟨⟨sigs,dummy,rest⟩,htake,h⟩
    obtain ⟨hS,hlen⟩ := takeGroup_ok.mp htake
    obtain ⟨b,hloop,h⟩ := bind_ok.mp h
    split_ifs at h with hnull
    cases h
    refine ⟨sigs,dummy,rest,b,hS,hlen,hloop,fun hflag => ?_,rfl⟩
    rw [hflag,Bool.true_and,bne_iff_ne,ne_eq,not_not] at hnull
    exact List.length_eq_zero_iff.mp hnull
  · rintro ⟨sigs,dummy,rest,b,hS,hlen,hloop,hnull,rfl⟩
    refine ⟨(sigs,dummy,rest),takeGroup_ok.mpr ⟨hS,hlen⟩,bind_ok.mpr ⟨b,hloop,?_⟩⟩
    have hno : ¬(hasFlag flags SCRIPT_VERIFY_NULLDUMMY && dummy.length != 0) = true := by
      intro h
      rw [Bool.and_eq_true,bne_iff_ne] at h
      exact h.2 (by rw [hnull h.1]; rfl)
    rw [if_neg hno]
    rfl

theorem evalStep_smallInt {n : ℕ} (h1 : 1 ≤ n) (hn : n ≤ 16) (pc : CScript) {m : Machine}
    (hm : m.vfExec = []) : evalStep flags checker ⟨smallIntOpcode n,[],pc⟩ m =
      checkStackSize { m with stack := CScriptNum.serialize n :: m.stack } := by
  obtain ⟨stack,altstack,vfExec,nOpCount,code⟩ := m
  obtain rfl : vfExec = [] := hm
  interval_cases n <;> rfl

theorem evalStep_checkMultiSig (pc : CScript) {m : Machine} (hm : m.vfExec = [])
    (hcount : m.nOpCount = 0) : evalStep flags checker ⟨OP_CHECKMULTISIG,[],pc⟩ m =
      evalCheckMultiSig false flags checker { m with nOpCount := 1 } >>= checkStackSize := by
  obtain ⟨stack,altstack,vfExec,nOpCount,code⟩ := m
  obtain rfl : vfExec = [] := hm
  obtain rfl : nOpCount = 0 := hcount
  rfl

omit [Crypto] in
theorem KeyPush.opcode_le (p : KeyPush) : p.opcode ≤ OP_PUSHDATA4 := by
  rcases p.form with h | h | h | h
  · have := p.size
    rw [h,UInt8.le_iff_toNat_le,UInt8.toNat_ofNat']
    change p.key.length % 256 ≤ 78
    omega
  all_goals
    rw [h]
    decide

omit [Crypto] in
theorem parse_multisigScript {k n : ℕ} (hk : k ≤ 16) (hn : n ≤ 16) (pushes : List KeyPush) :
    ∃ ops pc, (multisigScript k n pushes).parse = some (⟨smallIntOpcode k,[],pc⟩::(ops ++
        [⟨smallIntOpcode n,[],[OP_CHECKMULTISIG]⟩,⟨OP_CHECKMULTISIG,[],[]⟩])) ∧
      ops.map (fun o => (o.opcode,o.vch)) = pushes.map fun p => (p.opcode,p.key) := by
  have hlast : CScript.parse [smallIntOpcode n,OP_CHECKMULTISIG] =
      some [⟨smallIntOpcode n,[],[OP_CHECKMULTISIG]⟩,⟨OP_CHECKMULTISIG,[],[]⟩] :=
    parse_cons (getOp_plain (smallIntOpcode_plain hn) [OP_CHECKMULTISIG]) rfl
  obtain ⟨ops,hparse,hmap⟩ := parse_flatMap KeyPush.bytes (fun p => (p.opcode,p.key)) pushes
    (fun p _ rest => p.getOp_bytes rest) hlast
  exact ⟨ops,_,parse_cons (getOp_plain (smallIntOpcode_plain hk) _) hparse,hmap⟩

omit [Crypto] in
theorem length_multisigScript {k n : ℕ} {pushes : List KeyPush} (hn : pushes.length ≤ 16) :
    (multisigScript k n pushes).length ≤ MAX_SCRIPT_SIZE := by
  have hle := length_flatMap_bytes_le pushes
  unfold multisigScript MAX_SCRIPT_SIZE
  rw [List.cons_append,List.length_cons,List.length_append,List.length_cons,List.length_singleton]
  omega

theorem evalOps_keyPushes {ops : List ScriptOp} {pushes : List KeyPush} (hne : pushes ≠ [])
    (hmap : ops.map (fun o => (o.opcode,o.vch)) = pushes.map fun p => (p.opcode,p.key))
    {m m' : Machine} (hm : m.vfExec = []) : evalOps flags checker ops m = .ok m' ↔
      (∀ p ∈ pushes, hasFlag flags SCRIPT_VERIFY_MINIMALDATA → checkMinimalPush p.key p.opcode) ∧
      m.stack.length + pushes.length + m.altstack.length ≤ MAX_STACK_SIZE ∧
      m' = { m with stack := (pushes.map KeyPush.key).reverse ++ m.stack } := by
  have hcount : ops.length = pushes.length := by
    have := congrArg List.length hmap
    rwa [List.length_map,List.length_map] at this
  have hkeys : ops.map ScriptOp.vch = pushes.map KeyPush.key := by
    have hsnd := congrArg (List.map Prod.snd) hmap
    rwa [List.map_map,List.map_map] at hsnd
  have hof : ∀ op ∈ ops, ∃ p ∈ pushes, op.opcode = p.opcode ∧ op.vch = p.key := by
    intro op hop
    obtain ⟨p,hp,heq⟩ := exists_of_map_eq hmap hop
    obtain ⟨hopcode,hvch⟩ := Prod.mk.inj heq
    exact ⟨p,hp,hopcode.symm,hvch.symm⟩
  have hpush : ∀ op ∈ ops, op.opcode ≤ OP_PUSHDATA4 := by
    intro op hop
    obtain ⟨p,_,hopcode,_⟩ := hof op hop
    exact hopcode ▸ p.opcode_le
  have hne : ops ≠ [] :=
    List.ne_nil_of_length_pos (hcount ▸ List.length_pos_of_ne_nil hne)
  rw [evalOps_pushes hpush hm,hkeys,hcount]
  constructor
  · rintro ⟨hmin,hdepth,rfl⟩
    refine ⟨fun p hp hflag => ?_,hdepth hne,rfl⟩
    obtain ⟨op,hop,heq⟩ := exists_of_map_eq hmap.symm hp
    obtain ⟨hopcode,hvch⟩ := Prod.mk.inj heq
    exact hopcode ▸ hvch ▸ (hmin op hop).2 hflag
  · rintro ⟨hmin,hdepth,rfl⟩
    refine ⟨fun op hop => ?_,fun _ => hdepth,rfl⟩
    obtain ⟨p,hp,hopcode,hvch⟩ := hof op hop
    rw [hopcode,hvch]
    exact ⟨p.size.2.trans (by decide),hmin p hp⟩

theorem evalScript_multisig {k : ℕ} {pushes : List KeyPush} (h1 : 1 ≤ k) (hk : k ≤ pushes.length)
    (hn : pushes.length ≤ 16) {S S' : List valtype} :
    evalScript S (multisigScript k pushes.length pushes) flags checker = .ok S' ↔
      (∀ p ∈ pushes, hasFlag flags SCRIPT_VERIFY_MINIMALDATA → checkMinimalPush p.key p.opcode) ∧
      S.length + pushes.length + 2 ≤ MAX_STACK_SIZE ∧
      ∃ sigs dummy rest b, S = sigs ++ dummy::rest ∧ sigs.length = k ∧
        multiSigLoop flags checker
          (sigs.foldl (fun code sig => code.findAndDelete (pushData sig))
            (multisigScript k pushes.length pushes)) sigs (pushes.map KeyPush.key).reverse = .ok b ∧
        (hasFlag flags SCRIPT_VERIFY_NULLDUMMY → dummy = []) ∧ S' = vchBool b :: rest := by
  generalize hscript : multisigScript k pushes.length pushes = script
  have hlength : script.length ≤ MAX_SCRIPT_SIZE := hscript ▸ length_multisigScript hn
  obtain ⟨ops,pc,hparse,hmap⟩ := parse_multisigScript (hk.trans hn) hn pushes
  rw [hscript] at hparse
  have hkeyscount : (pushes.map KeyPush.key).reverse.length = pushes.length := by
    rw [List.length_reverse,List.length_map]
  have hne : pushes ≠ [] := List.ne_nil_of_length_pos (h1.trans hk)
  rw [evalScript_ok]
  constructor
  · rintro ⟨_,ops',m,hparse',hrun,_,rfl⟩
    rw [hparse] at hparse'
    cases hparse'
    obtain ⟨m₁,hfirst,hrun⟩ := foldlM_cons_ok.mp hrun
    rw [evalStep_smallInt h1 (hk.trans hn) pc rfl] at hfirst
    obtain ⟨_,rfl⟩ := checkStackSize_ok.mp hfirst
    obtain ⟨m₂,hkeysrun,hrun⟩ := foldlM_append_ok.mp hrun
    obtain ⟨hmin,_,rfl⟩ := (evalOps_keyPushes hne hmap rfl).mp hkeysrun
    obtain ⟨m₃,hcount,hrun⟩ := foldlM_cons_ok.mp hrun
    rw [evalStep_smallInt (h1.trans hk) hn _ rfl] at hcount
    obtain ⟨hdepth,rfl⟩ := checkStackSize_ok.mp hcount
    have hlast := foldlM_singleton_ok.mp hrun
    rw [evalStep_checkMultiSig _ rfl rfl] at hlast
    obtain ⟨m₄,hmulti,hsize⟩ := bind_ok.mp hlast
    obtain ⟨_,rfl⟩ := checkStackSize_ok.mp hsize
    rw [← hkeyscount] at hmulti
    obtain ⟨sigs,dummy,rest,b,hS,hsigs,hloop,hnull,rfl⟩ :=
      (evalCheckMultiSig_ok rfl (by omega) (by omega) rfl).mp hmulti
    refine ⟨hmin,?_,sigs,dummy,rest,b,hS,hsigs,hloop,hnull,rfl⟩
    dsimp only at hdepth
    rw [List.length_cons,List.length_append,hkeyscount,List.length_cons,List.length_nil] at hdepth
    omega
  · rintro ⟨hmin,hdepth,sigs,dummy,rest,b,hS,hsigs,hloop,hnull,rfl⟩
    let start : List valtype → Machine := fun stack => { stack, pbegincodehash := script }
    have hfirst : evalStep flags checker ⟨smallIntOpcode k,[],pc⟩ (start S) =
        .ok (start (CScriptNum.serialize k :: S)) := by
      rw [evalStep_smallInt h1 (hk.trans hn) pc rfl]
      refine checkStackSize_ok.mpr ⟨?_,rfl⟩
      change (CScriptNum.serialize k :: S).length + 0 ≤ _
      rw [List.length_cons]
      omega
    have hkeysrun : evalOps flags checker ops (start (CScriptNum.serialize k :: S)) =
        .ok (start ((pushes.map KeyPush.key).reverse ++ CScriptNum.serialize k :: S)) := by
      refine (evalOps_keyPushes hne hmap rfl).mpr ⟨hmin,?_,rfl⟩
      change (CScriptNum.serialize k :: S).length + pushes.length + 0 ≤ _
      rw [List.length_cons]
      omega
    have hcount : evalStep flags checker ⟨smallIntOpcode pushes.length,[],[OP_CHECKMULTISIG]⟩
        (start ((pushes.map KeyPush.key).reverse ++ CScriptNum.serialize k :: S)) =
          .ok (start (CScriptNum.serialize pushes.length ::
            ((pushes.map KeyPush.key).reverse ++ CScriptNum.serialize k :: S))) := by
      rw [evalStep_smallInt (h1.trans hk) hn _ rfl]
      refine checkStackSize_ok.mpr ⟨?_,rfl⟩
      change (_ :: ((pushes.map KeyPush.key).reverse ++ _ :: S)).length + 0 ≤ _
      rw [List.length_cons,List.length_append,hkeyscount,List.length_cons]
      omega
    have hlast : evalStep flags checker ⟨OP_CHECKMULTISIG,[],[]⟩
        (start (CScriptNum.serialize pushes.length ::
          ((pushes.map KeyPush.key).reverse ++ CScriptNum.serialize k :: S))) =
        .ok { start (vchBool b :: rest) with nOpCount := 1 + pushes.length } := by
      rw [evalStep_checkMultiSig _ rfl rfl]
      refine bind_ok.mpr ⟨_,(@evalCheckMultiSig_ok _ _ _ _ _ (pushes.map KeyPush.key).reverse S k
        (by rw [hkeyscount]) (by omega) (by omega) rfl).mpr
          ⟨sigs,dummy,rest,b,hS,hsigs,hloop,hnull,rfl⟩,checkStackSize_ok.mpr ⟨?_,?_⟩⟩
      · change (vchBool b :: rest).length + 0 ≤ _
        rw [hS,List.length_append,List.length_cons] at hdepth
        rw [List.length_cons]
        omega
      · rw [hkeyscount]
    exact ⟨hlength,_,_,hparse,foldlM_cons_ok.mpr ⟨_,hfirst,foldlM_append_ok.mpr ⟨_,hkeysrun,
      foldlM_cons_ok.mpr ⟨_,hcount,foldlM_singleton_ok.mpr hlast⟩⟩⟩,rfl,rfl⟩

end
end Sidechain
