import Sidechain.Script.SolverForms

/-! The multisignature template: which scripts match it, and with which solutions. -/
namespace Sidechain
open Run

section
variable {script1 script2 : CScript} {pc1 pc2 pc2' : ℕ} {vSolutions : List valtype}

theorem matchRound_plain {op2 : UInt8 × Bytes} (h2 : getOp2 script2 pc2 = .ok (pc2',some op2))
    (hkeys : op2.1 ≠ OP_PUBKEYS) (next : ℕ × ℕ × List valtype) :
    matchRound script1 script2 pc1 pc2 vSolutions = .ok (some next) ↔
      ∃ pc1' op1 vSolutions', getOp2 script1 pc1 = .ok (pc1',some op1) ∧
        matchOp op1 op2 vSolutions = some vSolutions' ∧ next = (pc1',pc2',vSolutions') := by
  unfold matchRound
  constructor
  · intro h
    obtain ⟨⟨pc1',r⟩,h1,h⟩ := bind_ok.mp h
    cases r with
    | none => cases h
    | some op1 =>
      dsimp only at h
      rw [h2] at h
      change (if op2.1 = OP_PUBKEYS then _ else _) = _ at h
      rw [if_neg hkeys] at h
      obtain ⟨vSolutions',hmatch,hnext⟩ := Option.map_eq_some_iff.mp (Except.ok.inj h)
      exact ⟨pc1',op1,vSolutions',h1,hmatch,hnext.symm⟩
  · rintro ⟨pc1',op1,vSolutions',h1,hmatch,rfl⟩
    rw [h1]
    change (getOp2 script2 pc2 >>= _) = _
    rw [h2]
    change (if op2.1 = OP_PUBKEYS then _ else _) = _
    rw [if_neg hkeys,hmatch]
    rfl

theorem matchRound_keys {pc2'' : ℕ} {vch2 : Bytes} {op2 : UInt8 × Bytes}
    (h2 : getOp2 script2 pc2 = .ok (pc2',some (OP_PUBKEYS,vch2)))
    (h2' : getOp2 script2 pc2' = .ok (pc2'',some op2)) (next : ℕ × ℕ × List valtype) :
    matchRound script1 script2 pc1 pc2 vSolutions = .ok (some next) ↔
      ∃ pc1' op1 s vSolutions', getOp2 script1 pc1 = .ok (pc1',some op1) ∧
        matchPubKeys script1 (script1.length + 1) ⟨pc1',op1,vSolutions⟩ = .ok s ∧
        matchOp s.op1 op2 s.vSolutions = some vSolutions' ∧ next = (s.pc1,pc2'',vSolutions') := by
  unfold matchRound
  constructor
  · intro h
    obtain ⟨⟨pc1',r⟩,h1,h⟩ := bind_ok.mp h
    cases r with
    | none => cases h
    | some op1 =>
      dsimp only at h
      rw [h2] at h
      change (matchPubKeys script1 (script1.length + 1) ⟨pc1',op1,vSolutions⟩ >>= _) = _ at h
      obtain ⟨s,hs,h⟩ := bind_ok.mp h
      rw [h2'] at h
      obtain ⟨vSolutions',hmatch,hnext⟩ := Option.map_eq_some_iff.mp (Except.ok.inj h)
      exact ⟨pc1',op1,s,vSolutions',h1,hs,hmatch,hnext.symm⟩
  · rintro ⟨pc1',op1,s,vSolutions',h1,hs,hmatch,rfl⟩
    rw [h1]
    change (getOp2 script2 pc2 >>= _) = _
    rw [h2]
    change (matchPubKeys script1 (script1.length + 1) ⟨pc1',op1,vSolutions⟩ >>= _) = _
    rw [hs]
    change (getOp2 script2 pc2' >>= _) = _
    rw [h2']
    change Except.ok ((matchOp s.op1 op2 s.vSolutions).map _) = _
    rw [hmatch]
    rfl

theorem matchTemplate_next {fuel : ℕ} {r : List valtype} (hend : pc2 < script2.length) :
    matchTemplate script1 script2 (fuel + 1) pc1 pc2 vSolutions = .ok (some r) ↔
      ∃ next, matchRound script1 script2 pc1 pc2 vSolutions = .ok (some next) ∧
        matchTemplate script1 script2 fuel next.1 next.2.1 next.2.2 = .ok (some r) := by
  have hmore : ¬(pc1 = script1.length ∧ pc2 = script2.length) := by omega
  rw [matchTemplate,if_neg hmore]
  constructor
  · intro h
    obtain ⟨o,hround,h⟩ := bind_ok.mp h
    cases o with
    | none => cases h
    | some next => exact ⟨next,hround,h⟩
  · rintro ⟨next,hround,h⟩
    rw [hround]
    exact h

theorem matchTemplate_end {fuel : ℕ} {r : List valtype} (hpc1 : pc1 ≤ script1.length)
    (hend : pc2 = script2.length) :
    matchTemplate script1 script2 (fuel + 1) pc1 pc2 vSolutions = .ok (some r) ↔
      pc1 = script1.length ∧ r = vSolutions := by
  have hover : getOp2 script2 pc2 = .ok (pc2,none) := if_pos (le_of_eq hend.symm)
  rw [matchTemplate]
  by_cases h1 : pc1 = script1.length
  · rw [if_pos ⟨h1,hend⟩]
    constructor
    · rintro ⟨⟩
      exact ⟨h1,rfl⟩
    · rintro ⟨_,rfl⟩
      rfl
  · rw [if_neg fun h => h1 h.1]
    constructor
    · intro h
      obtain ⟨o,hround,h⟩ := bind_ok.mp h
      obtain ⟨pc1',o1,hget,_⟩ := getOp2_spec script1 hpc1
      unfold matchRound at hround
      rw [hget] at hround
      cases o1 with
      | none =>
        cases hround
        cases h
      | some op1 =>
        change (getOp2 script2 pc2 >>= _) = _ at hround
        rw [hover] at hround
        cases hround
        cases h
    · exact fun h => absurd h.1 h1

end

theorem matchPubKeys_inv {script : CScript} {fuel pc : ℕ} {op : UInt8 × Bytes}
    {vSolutions : List valtype} {s : PubKeysScan} (hpc : pc ≤ script.length)
    (hop : getOp (opEncoding op ++ script.drop pc) = some ⟨op.1,op.2,script.drop pc⟩)
    (h : matchPubKeys script fuel ⟨pc,op,vSolutions⟩ = .ok s) :
    s.op1 = (OP_INVALIDOPCODE,[]) ∨ ∃ pushes : List KeyPush,
      s.vSolutions = vSolutions ++ pushes.map KeyPush.key ∧ s.pc1 ≤ script.length ∧
      opEncoding op ++ script.drop pc =
        pushes.flatMap KeyPush.bytes ++ (opEncoding s.op1 ++ script.drop s.pc1) ∧
      getOp (opEncoding s.op1 ++ script.drop s.pc1) =
        some ⟨s.op1.1,s.op1.2,script.drop s.pc1⟩ := by
  induction fuel generalizing pc op vSolutions with
  | zero => cases h
  | succ fuel ih =>
    unfold matchPubKeys at h
    dsimp only at h
    by_cases hsize : 33 ≤ op.2.length ∧ op.2.length ≤ 65
    · rw [if_pos hsize] at h
      obtain ⟨⟨pc',r⟩,hget,h⟩ := bind_ok.mp h
      cases r with
      | none =>
        cases h
        exact Or.inl rfl
      | some op' =>
        obtain ⟨_,hle,hread⟩ := getOp2_some hpc hget
        have hbytes := getOp_encoding hread
        dsimp only at hbytes
        rw [hbytes] at hread
        rcases ih hle hread h with hinvalid | ⟨pushes,hsols,hle',hrest,hlast⟩
        · exact Or.inl hinvalid
        · obtain ⟨p,hopcode,hkey⟩ := keyPush_of_getOp hop hsize
          dsimp only at hopcode hkey
          have hp : p.bytes = opEncoding op := by
            unfold KeyPush.bytes
            rw [hopcode,hkey]
          refine Or.inr ⟨p::pushes,?_,hle',?_,hlast⟩
          · rw [hsols,List.map_cons,hkey,List.append_assoc,List.singleton_append]
          · rw [hbytes,hrest,List.flatMap_cons,hp,List.append_assoc]
    · rw [if_neg hsize] at h
      cases h
      exact Or.inr ⟨[],(List.append_nil _).symm,hpc,rfl,hop⟩

theorem matchPubKeys_run {script front : CScript} {p : KeyPush} {pushes : List KeyPush}
    {last rest : CScript} {opcode : UInt8} {fuel : ℕ} {vSolutions : List valtype}
    (hscript : script = front ++ pushes.flatMap KeyPush.bytes ++ last ++ rest)
    (hlen : script.length < 2^31) (hlast : getOp (last ++ rest) = some ⟨opcode,[],rest⟩)
    (hfuel : pushes.length + 1 < fuel) :
    matchPubKeys script fuel ⟨front.length,(p.opcode,p.key),vSolutions⟩ =
      .ok ⟨(front ++ pushes.flatMap KeyPush.bytes ++ last).length,(opcode,[]),
        vSolutions ++ (p::pushes).map KeyPush.key⟩ := by
  induction pushes generalizing p front fuel vSolutions with
  | nil =>
    obtain ⟨fuel,rfl⟩ : ∃ f, fuel = f + 2 := ⟨fuel - 2,by simp at hfuel; omega⟩
    rw [List.flatMap_nil,List.append_nil] at hscript ⊢
    have hget := getOp2_at hscript hlen hlast
    unfold matchPubKeys
    rw [if_pos p.size]
    dsimp only
    rw [hget]
    rfl
  | cons q pushes ih =>
    obtain ⟨fuel,rfl⟩ : ∃ f, fuel = f + 1 := ⟨fuel - 1,by omega⟩
    rw [List.flatMap_cons] at hscript ⊢
    have hsplit : script = front ++ q.bytes ++ (pushes.flatMap KeyPush.bytes ++ last ++ rest) := by
      rw [hscript]
      simp only [List.append_assoc]
    have hget := getOp2_at hsplit hlen (q.getOp_bytes _)
    have hnext := @ih (front ++ q.bytes) q fuel (vSolutions ++ [p.key])
      (by rw [hscript]; simp only [List.append_assoc]) (by rw [List.length_cons] at hfuel; omega)
    unfold matchPubKeys
    rw [if_pos p.size]
    dsimp only
    rw [hget]
    change matchPubKeys script fuel ⟨(front ++ q.bytes).length,(q.opcode,q.key),vSolutions ++ [p.key]⟩ = _
    rw [hnext]
    simp only [List.append_assoc,List.map_cons,List.singleton_append]

def multisigTemplate : CScript := [OP_SMALLINTEGER,OP_PUBKEYS,OP_SMALLINTEGER,OP_CHECKMULTISIG]

/-- A script of the form of the template, whatever the two numbers are. -/
def multisigScript (m n : ℕ) (pushes : List KeyPush) : CScript :=
  smallIntOpcode m::pushes.flatMap KeyPush.bytes ++ [smallIntOpcode n,OP_CHECKMULTISIG]

def multisigSolutions (m n : ℕ) (pushes : List KeyPush) : List valtype :=
  [[UInt8.ofNat m]] ++ pushes.map KeyPush.key ++ [[UInt8.ofNat n]]

theorem matchTemplate_rounds {script : CScript} {r : List valtype} :
    matchTemplate script multisigTemplate 5 0 0 [] = .ok (some r) ↔
      ∃ pc op1 v pc' op2 s v' pc'' op3, getOp2 script 0 = .ok (pc,some op1) ∧
        matchOp op1 (OP_SMALLINTEGER,[]) [] = some v ∧ getOp2 script pc = .ok (pc',some op2) ∧
        matchPubKeys script (script.length + 1) ⟨pc',op2,v⟩ = .ok s ∧
        matchOp s.op1 (OP_SMALLINTEGER,[]) s.vSolutions = some v' ∧
        getOp2 script s.pc1 = .ok (pc'',some op3) ∧
        matchOp op3 (OP_CHECKMULTISIG,[]) v' = some r ∧ pc'' = script.length := by
  have hfirst : getOp2 multisigTemplate 0 = .ok (1,some (OP_SMALLINTEGER,[])) := by decide
  have hkeys : getOp2 multisigTemplate 1 = .ok (2,some (OP_PUBKEYS,[])) := by decide
  have hsecond : getOp2 multisigTemplate 2 = .ok (3,some (OP_SMALLINTEGER,[])) := by decide
  have hcheck : getOp2 multisigTemplate 3 = .ok (4,some (OP_CHECKMULTISIG,[])) := by decide
  have hone : 1 < multisigTemplate.length := by decide
  have hthree : 3 < multisigTemplate.length := by decide
  have hends : ∀ {pc op1 pc' op2 v s pc'' op3}, getOp2 script 0 = .ok (pc,some op1) →
      getOp2 script pc = .ok (pc',some op2) →
        matchPubKeys script (script.length + 1) ⟨pc',op2,v⟩ = .ok s →
          getOp2 script s.pc1 = .ok (pc'',some op3) → pc'' ≤ script.length := by
    intro pc op1 pc' op2 v s pc'' op3 h1 h2 hs h3
    obtain ⟨_,hpc,_⟩ := getOp2_some (Nat.zero_le _) h1
    obtain ⟨_,hpc',_⟩ := getOp2_some hpc h2
    obtain ⟨s',hs',hle⟩ := @matchPubKeys_total script (script.length + 1) ⟨pc',op2,v⟩ hpc'
      (by omega)
    rw [hs'] at hs
    cases hs
    exact (getOp2_some hle h3).2.1
  rw [matchTemplate_next (by decide)]
  constructor
  · rintro ⟨next,hround,h⟩
    obtain ⟨pc,op1,v,h1,hm,rfl⟩ := (matchRound_plain hfirst (by decide) next).mp hround
    obtain ⟨next,hround,h⟩ := (matchTemplate_next hone).mp h
    obtain ⟨pc',op2,s,v',h2,hs,hm',rfl⟩ := (matchRound_keys hkeys hsecond next).mp hround
    obtain ⟨next,hround,h⟩ := (matchTemplate_next hthree).mp h
    obtain ⟨pc'',op3,v'',h3,hm'',rfl⟩ := (matchRound_plain hcheck (by decide) next).mp hround
    obtain ⟨hend,rfl⟩ := (matchTemplate_end (hends h1 h2 hs h3) rfl).mp h
    exact ⟨pc,op1,v,pc',op2,s,v',pc'',op3,h1,hm,h2,hs,hm',h3,hm'',hend⟩
  · rintro ⟨pc,op1,v,pc',op2,s,v',pc'',op3,h1,hm,h2,hs,hm',h3,hm'',hend⟩
    refine ⟨_,(matchRound_plain hfirst (by decide) _).mpr ⟨pc,op1,v,h1,hm,rfl⟩,?_⟩
    refine (matchTemplate_next hone).mpr
      ⟨_,(matchRound_keys hkeys hsecond _).mpr ⟨pc',op2,s,v',h2,hs,hm',rfl⟩,?_⟩
    refine (matchTemplate_next hthree).mpr
      ⟨_,(matchRound_plain hcheck (by decide) _).mpr ⟨pc'',op3,r,h3,hm'',rfl⟩,?_⟩
    exact (matchTemplate_end (hends h1 h2 hs h3) rfl).mpr ⟨hend,rfl⟩

theorem opEncoding_plain {opcode : UInt8} (h : opcode = OP_0 ∨ OP_PUSHDATA4 < opcode) :
    opEncoding (opcode,[]) = [opcode] := by
  have hbytes := getOp_encoding (getOp_plain h [])
  rw [List.append_nil,List.append_nil] at hbytes
  exact hbytes.symm

theorem drop_eq_of_getOp2 {script : CScript} {pc pc' : ℕ} {op : UInt8 × Bytes}
    (hpc : pc ≤ script.length) (h : getOp2 script pc = .ok (pc',some op)) :
    script.drop pc = opEncoding op ++ script.drop pc' :=
  getOp_encoding (getOp2_some hpc h).2.2

theorem smallInt_of_getOp {pc : CScript} {op : ScriptOp} {n : ℕ} (hn : n ≤ 16)
    (h : getOp pc = some op) (hop : op.opcode = smallIntOpcode n) :
    opEncoding (op.opcode,op.vch) = [smallIntOpcode n] := by
  have hplain := smallIntOpcode_plain hn
  rw [← hop] at hplain
  rw [getOp_plain_vch h hplain,opEncoding_plain hplain,hop]

theorem matchOp_checkMultisig {op1 : UInt8 × Bytes} {v v' : List valtype} :
    matchOp op1 (OP_CHECKMULTISIG,[]) v = some v' ↔ op1 = (OP_CHECKMULTISIG,[]) ∧ v' = v := by
  have hmatch : matchOp op1 (OP_CHECKMULTISIG,[]) v =
      if op1.1 ≠ OP_CHECKMULTISIG ∨ op1.2 ≠ [] then none else some v := rfl
  rw [hmatch]
  obtain ⟨opcode,vch⟩ := op1
  split_ifs with h
  · constructor
    · exact fun hnone => nomatch hnone
    · rintro ⟨⟨⟩,_⟩
      exact (h.elim (· rfl) (· rfl)).elim
  · obtain ⟨h1,h2⟩ := not_or.mp h
    rw [not_not] at h1 h2
    dsimp only at h1 h2
    constructor
    · rintro ⟨⟩
      exact ⟨by rw [h1,h2],rfl⟩
    · rintro ⟨_,rfl⟩
      rfl

theorem multisig_of_match {script : CScript} {r : List valtype}
    (h : matchTemplate script multisigTemplate 5 0 0 [] = .ok (some r)) :
    ∃ m ≤ 16, ∃ n ≤ 16, ∃ pushes, script = multisigScript m n pushes ∧
      r = multisigSolutions m n pushes := by
  obtain ⟨pc,op1,v,pc',op2,s,v',pc'',op3,h1,hm,h2,hs,hm',h3,hm'',hend⟩ :=
    matchTemplate_rounds.mp h
  obtain ⟨m,hmle,hop1,rfl⟩ := matchOp_smallInt.mp hm
  obtain ⟨_,hpc,hread1⟩ := getOp2_some (Nat.zero_le _) h1
  obtain ⟨_,hpc',hread2⟩ := getOp2_some hpc h2
  have hbytes1 := drop_eq_of_getOp2 (Nat.zero_le _) h1
  have hbytes2 := drop_eq_of_getOp2 hpc h2
  have hsmall1 := smallInt_of_getOp hmle hread1 hop1
  rw [hbytes2] at hread2
  obtain ⟨n,hnle,hopn,rfl⟩ := matchOp_smallInt.mp hm'
  rcases matchPubKeys_inv hpc' hread2 hs with hinvalid | ⟨pushes,hsols,hle,hkeys,hlast⟩
  · rw [hinvalid] at hopn
    have hnat : (smallIntOpcode n).toNat = 255 := by
      rw [← hopn]
      rfl
    by_cases h0 : n = 0
    · rw [h0] at hnat
      exact absurd hnat (by decide)
    · rw [smallIntOpcode_toNat hnle h0] at hnat
      omega
  · obtain ⟨rfl,rfl⟩ := matchOp_checkMultisig.mp hm''
    have hsmall2 := smallInt_of_getOp hnle hlast hopn
    have hbytes3 := drop_eq_of_getOp2 hle h3
    rw [hend,List.drop_length,List.append_nil,opEncoding_plain (Or.inr (by decide))] at hbytes3
    refine ⟨m,hmle,n,hnle,pushes,?_,?_⟩
    · dsimp only at hsmall1 hsmall2
      rw [List.drop_zero] at hbytes1
      rw [hsmall1] at hbytes1
      rw [hbytes1,hbytes2,hkeys,hsmall2,hbytes3]
      rfl
    · rw [hsols]
      rfl

theorem length_le_flatMap_bytes (pushes : List KeyPush) :
    pushes.length ≤ (pushes.flatMap KeyPush.bytes).length := by
  induction pushes with
  | nil => exact Nat.zero_le _
  | cons p pushes ih =>
    have hpos : 0 < p.bytes.length := Nat.succ_pos _
    rw [List.flatMap_cons,List.length_cons,List.length_append]
    omega

theorem match_of_multisig {m n : ℕ} (hm : m ≤ 16) (hn : n ≤ 16) (p : KeyPush)
    (pushes : List KeyPush) (hlen : (multisigScript m n (p::pushes)).length < 2^31) :
    matchTemplate (multisigScript m n (p::pushes)) multisigTemplate 5 0 0 [] =
      .ok (some (multisigSolutions m n (p::pushes))) := by
  have hplainm := smallIntOpcode_plain hm
  have hplainn := smallIntOpcode_plain hn
  set script := multisigScript m n (p::pushes) with hscript
  have hform : script = [smallIntOpcode m] ++ p.bytes ++ pushes.flatMap KeyPush.bytes ++
      [smallIntOpcode n] ++ [OP_CHECKMULTISIG] := by
    rw [hscript,multisigScript,List.flatMap_cons]
    simp only [List.append_assoc,List.cons_append,List.nil_append]
  have h1 : getOp2 script 0 = .ok (1,some (smallIntOpcode m,[])) :=
    @getOp2_at script [] [smallIntOpcode m] _ _ _ (by rw [hform]; simp only [List.append_assoc]; rfl)
      hlen (getOp_plain hplainm _)
  have h2 := @getOp2_at script [smallIntOpcode m] p.bytes
    (pushes.flatMap KeyPush.bytes ++ [smallIntOpcode n] ++ [OP_CHECKMULTISIG]) p.opcode p.key
    (by rw [hform]; simp only [List.append_assoc]) hlen (p.getOp_bytes _)
  have hcount := length_le_flatMap_bytes pushes
  have hlength := congrArg List.length hform
  simp only [List.length_append,List.length_singleton] at hlength
  have hs := @matchPubKeys_run script ([smallIntOpcode m] ++ p.bytes) p pushes [smallIntOpcode n]
    [OP_CHECKMULTISIG] (smallIntOpcode n) (script.length + 1) [[UInt8.ofNat m]]
    hform hlen (getOp_plain hplainn _) (by omega)
  have h3 := @getOp2_at script _ [OP_CHECKMULTISIG] [] _ _
    (by rw [List.append_nil]; exact hform) hlen (getOp_plain (Or.inr (by decide)) [])
  refine matchTemplate_rounds.mpr ⟨1,_,_,_,_,_,_,_,_,h1,matchOp_smallInt.mpr ⟨m,hm,rfl,rfl⟩,h2,hs,
    matchOp_smallInt.mpr ⟨n,hn,rfl,rfl⟩,h3,matchOp_checkMultisig.mpr ⟨rfl,rfl⟩,?_⟩
  rw [← hform]

end Sidechain
