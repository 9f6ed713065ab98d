import Sidechain.Script.SolverMultisig

/-! What `Solver` answers for every script, and for those that the builders build. -/
namespace Sidechain
open Run

theorem foundTemplate_multisig {m n : ℕ} (hm : m ≤ 16) (hn : n ≤ 16) (pushes : List KeyPush) :
    foundTemplate .multisig (multisigSolutions m n pushes) =
      .ok ⟨decide (1 ≤ m ∧ m ≤ n ∧ pushes.length = n),.multisig,multisigSolutions m n pushes⟩ := by
  have hfront : (multisigSolutions m n pushes).head? = some [UInt8.ofNat m] := rfl
  have hback : (multisigSolutions m n pushes).getLast? = some [UInt8.ofNat n] :=
    List.getLast?_concat
  have hlen : (multisigSolutions m n pushes).length = pushes.length + 2 := by
    unfold multisigSolutions
    simp only [List.length_append,List.length_singleton,List.length_map]
    omega
  have hnat : ∀ k ≤ 16, (UInt8.ofNat k).toNat = k := fun k hk => by
    rw [UInt8.toNat_ofNat']
    exact Nat.mod_eq_of_lt (by omega)
  have hcond : (UInt8.ofNat m < 1 ∨ UInt8.ofNat n < 1 ∨ UInt8.ofNat m > UInt8.ofNat n ∨
      ((multisigSolutions m n pushes).length : ℤ) - 2 ≠ (UInt8.ofNat n).toNat) ↔
        ¬(1 ≤ m ∧ m ≤ n ∧ pushes.length = n) := by
    have hone : (1 : UInt8).toNat = 1 := rfl
    rw [hlen,UInt8.lt_iff_toNat_lt,UInt8.lt_iff_toNat_lt,gt_iff_lt,UInt8.lt_iff_toNat_lt,
      hnat m hm,hnat n hn,hone]
    omega
  unfold foundTemplate
  rw [if_pos rfl,hfront,hback]
  change (if UInt8.ofNat m < 1 ∨ UInt8.ofNat n < 1 ∨ UInt8.ofNat m > UInt8.ofNat n ∨
    ((multisigSolutions m n pushes).length : ℤ) - 2 ≠ (UInt8.ofNat n).toNat then _ else _) = _
  by_cases hform : 1 ≤ m ∧ m ≤ n ∧ pushes.length = n
  · rw [if_neg (not_not.mpr hform ∘ hcond.mp),decide_eq_true hform]
  · rw [if_pos (hcond.mpr hform),decide_eq_false hform]

theorem scanTemplates_some {script : CScript} {t : TxnOutType × CScript}
    {rest : List (TxnOutType × CScript)} {r : List valtype}
    (h : matchTemplate script t.2 (t.2.length + 1) 0 0 [] = .ok (some r)) :
    scanTemplates script (t::rest) = foundTemplate t.1 r := by
  rw [scanTemplates,h]
  rfl

theorem scanTemplates_none {script : CScript} {t : TxnOutType × CScript}
    {rest : List (TxnOutType × CScript)}
    (h : matchTemplate script t.2 (t.2.length + 1) 0 0 [] = .ok none) :
    scanTemplates script (t::rest) = scanTemplates script rest := by
  rw [scanTemplates,h]
  rfl

theorem scanTemplates_spec (script : CScript) : ∃ r, scanTemplates script mTemplates = .ok r ∧
    ∀ sols, r = ⟨true,.multisig,sols⟩ →
      ∃ m ≤ 16, ∃ n ≤ 16, ∃ pushes, script = multisigScript m n pushes ∧
        sols = multisigSolutions m n pushes ∧ 1 ≤ m ∧ m ≤ n ∧ pushes.length = n := by
  have htotal : ∀ script2 : CScript,
      ∃ r, matchTemplate script script2 (script2.length + 1) 0 0 [] = .ok r := fun script2 =>
    matchTemplate_total [] (Nat.zero_le _) (Nat.zero_le _) (by omega)
  unfold mTemplates
  obtain ⟨r1,h1⟩ := htotal [OP_PUBKEY,OP_CHECKSIG]
  cases r1 with
  | some sols =>
    rw [scanTemplates_some h1]
    exact ⟨_,rfl,fun _ h => nomatch h⟩
  | none =>
    rw [scanTemplates_none h1]
    obtain ⟨r2,h2⟩ := htotal [OP_DUP,OP_HASH160,OP_PUBKEYHASH,OP_EQUALVERIFY,OP_CHECKSIG]
    cases r2 with
    | some sols =>
      rw [scanTemplates_some h2]
      exact ⟨_,rfl,fun _ h => nomatch h⟩
    | none =>
      rw [scanTemplates_none h2]
      obtain ⟨r3,h3⟩ := htotal multisigTemplate
      cases r3 with
      | none =>
        exact ⟨_,scanTemplates_none h3,fun _ h => nomatch h⟩
      | some sols =>
        obtain ⟨m,hm,n,hn,pushes,hscript,rfl⟩ := multisig_of_match h3
        have hfound := foundTemplate_multisig hm hn pushes
        refine ⟨_,(scanTemplates_some h3).trans hfound,?_⟩
        intro sols h
        obtain ⟨hret,_,hsols⟩ := Solved.mk.inj h
        obtain ⟨h1,h2,h3⟩ := of_decide_eq_true hret
        exact ⟨m,hm,n,hn,pushes,hscript,hsols.symm,h1,h2,h3⟩

theorem isNullData_cons {opcode : UInt8} {rest : CScript} (h : opcode ≠ OP_RETURN) :
    isNullData (opcode::rest) = .ok false := by
  unfold isNullData
  rw [if_pos (by rw [List.length_cons]; omega),readAt_ok (by rw [List.length_cons]; omega)]
  change (if [opcode] = [OP_RETURN] then _ else _) = _
  rw [if_neg fun hcons => h (List.cons.inj hcons).1]

theorem solver_scan {script : CScript} (hp2sh : ¬script.isPayToScriptHash = true)
    (hnull : isNullData script = .ok false) : solver script = scanTemplates script mTemplates := by
  unfold solver
  rw [if_neg hp2sh,hnull]
  rfl

/-- `Solver` reads inside the scripts only, and answers. -/
theorem solver_spec (script : CScript) : ∃ r, solver script = .ok r ∧
    ∀ sols, r = ⟨true,.multisig,sols⟩ →
      ∃ m ≤ 16, ∃ n ≤ 16, ∃ pushes, script = multisigScript m n pushes ∧
        sols = multisigSolutions m n pushes ∧ 1 ≤ m ∧ m ≤ n ∧ pushes.length = n := by
  unfold solver
  by_cases hp2sh : script.isPayToScriptHash = true
  · have hlen : script.length = 23 := by
      unfold CScript.isPayToScriptHash at hp2sh
      simp only [Bool.and_eq_true,beq_iff_eq] at hp2sh
      exact hp2sh.1.1.1
    rw [if_pos hp2sh,readAt_ok (by omega)]
    exact ⟨_,rfl,fun _ h => nomatch h⟩
  · rw [if_neg hp2sh]
    obtain ⟨null,hnull⟩ := isNullData_total script
    rw [hnull]
    cases null with
    | true => exact ⟨_,rfl,fun _ h => nomatch h⟩
    | false => exact scanTemplates_spec script

theorem length_flatMap_bytes_le (pushes : List KeyPush) :
    (pushes.flatMap KeyPush.bytes).length ≤ 70 * pushes.length := by
  induction pushes with
  | nil => exact Nat.zero_le _
  | cons p pushes ih =>
    have hwidth : sizeWidth p.opcode ≤ 4 := by
      unfold sizeWidth
      split_ifs <;> decide
    have hbytes : p.bytes.length = 1 + sizeWidth p.opcode + p.key.length := by
      unfold KeyPush.bytes opEncoding
      rw [List.length_cons,List.length_append,leBytes_length]
      dsimp only
      omega
    have hsize := p.size.2
    rw [List.flatMap_cons,List.length_append,List.length_cons]
    omega

theorem multisigScript_length {m n : ℕ} {pushes : List KeyPush} (h : pushes.length ≤ 16) :
    (multisigScript m n pushes).length < 2^31 := by
  have hle := length_flatMap_bytes_le pushes
  unfold multisigScript
  rw [List.cons_append,List.length_cons,List.length_append,List.length_cons,List.length_singleton]
  exact lt_of_le_of_lt (show _ ≤ 1123 by omega) (by norm_num)

theorem matchTemplate_first {script1 script2 : CScript} {fuel pc1 pc2 : ℕ}
    {op1 op2 : UInt8 × Bytes} (h1 : getOp2 script1 0 = .ok (pc1,some op1))
    (h2 : getOp2 script2 0 = .ok (pc2,some op2)) (hkeys : op2.1 ≠ OP_PUBKEYS)
    (hend : script2 ≠ []) (hmatch : matchOp op1 op2 [] = none) :
    matchTemplate script1 script2 (fuel + 1) 0 0 [] = .ok none := by
  have hmore : ¬(0 = script1.length ∧ 0 = script2.length) := fun h =>
    hend (List.length_eq_zero_iff.mp h.2.symm)
  rw [matchTemplate,if_neg hmore,matchRound,h1]
  change (getOp2 script2 0 >>= _) >>= _ = _
  rw [h2]
  change (if op2.1 = OP_PUBKEYS then _ else _) >>= _ = _
  rw [if_neg hkeys,hmatch]
  rfl

theorem solver_multisigScript {m n : ℕ} {pushes : List KeyPush} (h1 : 1 ≤ m) (hmn : m ≤ n)
    (hn : n ≤ 16) (hcount : pushes.length = n) :
    solver (multisigScript m n pushes) = .ok ⟨true,.multisig,multisigSolutions m n pushes⟩ := by
  have hlen := @multisigScript_length m n pushes (by omega)
  obtain ⟨p,pushes,rfl⟩ := List.exists_cons_of_length_pos (show 0 < pushes.length by omega)
  have hm : m ≤ 16 := by omega
  have hnat := smallIntOpcode_toNat hm (by omega)
  have hne : ∀ c : UInt8, 97 ≤ c.toNat → smallIntOpcode m ≠ c := by
    rintro c hc rfl
    omega
  have hfirst : ∃ rest, multisigScript m n (p::pushes) = smallIntOpcode m::rest := ⟨_,rfl⟩
  have hget : getOp2 (multisigScript m n (p::pushes)) 0 = .ok (1,some (smallIntOpcode m,[])) :=
    @getOp2_at _ [] [smallIntOpcode m] _ _ _ rfl hlen
      (getOp_plain (smallIntOpcode_plain hm) _)
  have hmatch := match_of_multisig hm hn p pushes hlen
  obtain ⟨rest,hrest⟩ := hfirst
  have hp2sh : ¬(multisigScript m n (p::pushes)).isPayToScriptHash = true := by
    rw [hrest]
    unfold CScript.isPayToScriptHash
    simp only [Bool.and_eq_true,beq_iff_eq]
    rintro ⟨⟨⟨_,h⟩,_⟩,_⟩
    exact hne OP_HASH160 (by decide) (Option.some.inj h)
  have hnull : isNullData (multisigScript m n (p::pushes)) = .ok false := by
    rw [hrest]
    exact isNullData_cons (hne OP_RETURN (by decide))
  rw [solver_scan hp2sh hnull]
  have hpubkey : getOp2 [OP_PUBKEY,OP_CHECKSIG] 0 = .ok (1,some (OP_PUBKEY,[])) := by decide
  have hdup : getOp2 [OP_DUP,OP_HASH160,OP_PUBKEYHASH,OP_EQUALVERIFY,OP_CHECKSIG] 0 =
      .ok (1,some (OP_DUP,[])) := by decide
  have hnodup : matchOp (smallIntOpcode m,[]) (OP_DUP,[]) [] = none :=
    if_pos (Or.inl (hne OP_DUP (by decide)))
  unfold mTemplates
  rw [scanTemplates_none (matchTemplate_first hget hpubkey (by decide) (by decide) rfl),
    scanTemplates_none (matchTemplate_first hget hdup (by decide) (by decide) hnodup)]
  have hthird : scanTemplates (multisigScript m n (p::pushes)) [(.multisig,multisigTemplate)] =
      foundTemplate .multisig (multisigSolutions m n (p::pushes)) := by
    rw [scanTemplates]
    dsimp only
    rw [show multisigTemplate.length + 1 = 5 from rfl,hmatch]
    rfl
  rw [foundTemplate_multisig hm hn,decide_eq_true ⟨h1,hmn,hcount⟩] at hthird
  exact hthird

theorem pushVectors_eq {keys : List Bytes} {script : CScript}
    (hlen : script.length + (keys.flatMap pushData).length < 2^31) :
    keys.foldlM pushVector script = .ok (script ++ keys.flatMap pushData) := by
  have hitems : (keys.map ScriptItem.data).flatMap ScriptItem.bytes = keys.flatMap pushData := by
    rw [List.flatMap_map]
    rfl
  have hfold := @appendItems_fit (keys.map ScriptItem.data) script
    (fun n h => by simp at h) (by rw [hitems]; exact hlen)
  rw [List.foldlM_map,hitems] at hfold
  exact hfold

theorem isValid_length {key : Bytes} (h : CPubKey.isValid key = true) :
    key.length = 33 ∨ key.length = 65 := by
  cases key with
  | nil => cases h
  | cons chHeader rest =>
    change (CPubKey.getLen chHeader != 0 && CPubKey.getLen chHeader == (chHeader::rest).length) =
      true at h
    rw [Bool.and_eq_true,bne_iff_ne,beq_iff_eq] at h
    obtain ⟨hne,hlen⟩ := h
    rw [← hlen]
    unfold CPubKey.getLen at hne ⊢
    split_ifs at hne ⊢ with h1 h2
    · exact Or.inl rfl
    · exact Or.inr rfl
    · exact absurd rfl hne

theorem keyPushes_of_valid {keys : List Bytes} (h : ∀ key ∈ keys, CPubKey.isValid key = true) :
    ∃ pushes : List KeyPush, pushes.map KeyPush.key = keys ∧
      pushes.flatMap KeyPush.bytes = keys.flatMap pushData := by
  induction keys with
  | nil => exact ⟨[],rfl,rfl⟩
  | cons key keys ih =>
    obtain ⟨pushes,hmap,hbytes⟩ := ih fun key hkey => h key (List.mem_cons_of_mem _ hkey)
    have hlen := isValid_length (h key List.mem_cons_self)
    have hsize : 33 ≤ key.length ∧ key.length ≤ 65 := by omega
    have hsmall : key.length < OP_PUSHDATA1.toNat := by
      change key.length < 76
      omega
    have hopcode : UInt8.ofNat key.length < OP_PUSHDATA1 := by
      rw [UInt8.lt_iff_toNat_lt,UInt8.toNat_ofNat',Nat.mod_eq_of_lt (by omega)]
      exact hsmall
    refine ⟨⟨UInt8.ofNat key.length,key,hsize,Or.inl rfl⟩::pushes,by rw [List.map_cons,hmap],?_⟩
    rw [List.flatMap_cons,List.flatMap_cons,hbytes]
    congr 1
    unfold KeyPush.bytes opEncoding pushData
    dsimp only
    rw [sizeWidth_direct hopcode,if_pos hsmall,leBytes_one_eq]
    rfl

theorem getScriptForMultisig_eq {m : ℕ} {keys : List Bytes} {pushes : List KeyPush} (hm : m ≤ 16)
    (hn : keys.length ≤ 16) (hmap : pushes.map KeyPush.key = keys)
    (hbytes : pushes.flatMap KeyPush.bytes = keys.flatMap pushData) :
    getScriptForMultisig m keys = .ok (multisigScript m keys.length pushes) := by
  have hcount : pushes.length = keys.length := by rw [← hmap,List.length_map]
  have hlen := @multisigScript_length m keys.length pushes (by omega)
  have hsize : (multisigScript m keys.length pushes).length = (keys.flatMap pushData).length + 3 := by
    unfold multisigScript
    rw [hbytes,List.cons_append,List.length_cons,List.length_append]
    rfl
  rw [hsize] at hlen
  have hint : Int.bmod keys.length (2^32) = keys.length := Int.bmod_eq_of_le (by omega) (by omega)
  unfold getScriptForMultisig
  rw [hint,encodeOP_N_eq hm,encodeOP_N_eq hn]
  refine bind_ok.mpr ⟨_,rfl,bind_ok.mpr ⟨_,insertEnd_ok.mpr ⟨rfl,?_⟩,bind_ok.mpr ⟨_,pushVectors_eq ?_,
    bind_ok.mpr ⟨_,rfl,bind_ok.mpr ⟨_,insertEnd_ok.mpr ⟨rfl,?_⟩,insertEnd_ok.mpr ⟨?_,?_⟩⟩⟩⟩⟩⟩
  · simp only [List.nil_append,List.length_singleton]
    omega
  · simp only [List.nil_append,List.length_singleton]
    omega
  · simp only [List.nil_append,List.length_append,List.length_singleton]
    omega
  · rw [multisigScript,hbytes]
    simp only [List.nil_append,List.append_assoc,List.cons_append]
  · rw [hsize]
    exact hlen

theorem solver_getScriptForMultisig {m : ℕ} {keys : List Bytes} (h1 : 1 ≤ m)
    (hm : m ≤ keys.length) (hn : keys.length ≤ 16)
    (hvalid : ∀ key ∈ keys, CPubKey.isValid key = true) :
    ∃ script, getScriptForMultisig m keys = .ok script ∧ solver script =
      .ok ⟨true,.multisig,[[UInt8.ofNat m]] ++ keys ++ [[UInt8.ofNat keys.length]]⟩ := by
  obtain ⟨pushes,hmap,hbytes⟩ := keyPushes_of_valid hvalid
  have hcount : pushes.length = keys.length := by rw [← hmap,List.length_map]
  refine ⟨_,getScriptForMultisig_eq (by omega) hn hmap hbytes,?_⟩
  rw [solver_multisigScript h1 hm hn hcount,multisigSolutions,hmap]

/-- A round against a template, at an operation that matches. -/
theorem matchTemplate_step {script1 front1 bytes1 rest1 script2 : CScript} {pc2 pc2' fuel : ℕ}
    {op1 op2 : UInt8 × Bytes} {v v' r : List valtype} (hscript : script1 = front1 ++ bytes1 ++ rest1)
    (hlen : script1.length < 2^31) (hop : getOp (bytes1 ++ rest1) = some ⟨op1.1,op1.2,rest1⟩)
    (h2 : getOp2 script2 pc2 = .ok (pc2',some op2)) (hkeys : op2.1 ≠ OP_PUBKEYS)
    (hend : pc2 < script2.length) (hmatch : matchOp op1 op2 v = some v')
    (hrest : matchTemplate script1 script2 fuel (front1 ++ bytes1).length pc2' v' = .ok (some r)) :
    matchTemplate script1 script2 (fuel + 1) front1.length pc2 v = .ok (some r) :=
  (matchTemplate_next hend).mpr ⟨_,(matchRound_plain h2 hkeys _).mpr
    ⟨_,_,_,getOp2_at hscript hlen hop,hmatch,rfl⟩,hrest⟩

theorem pushData_hash {hash : Bytes} (hhash : hash.length = 20) : pushData hash = 0x14::hash := by
  unfold pushData
  rw [if_pos (by rw [hhash]; decide),hhash]
  rfl

theorem solver_pubkeyhash {hash : Bytes} (hhash : hash.length = 20) :
    solver ([OP_DUP,OP_HASH160] ++ pushData hash ++ [OP_EQUALVERIFY,OP_CHECKSIG]) =
      .ok ⟨true,.pubkeyhash,[hash]⟩ := by
  have hpush := pushData_hash hhash
  set script : CScript := [OP_DUP,OP_HASH160] ++ pushData hash ++ [OP_EQUALVERIFY,OP_CHECKSIG]
    with hscript
  have hlength : script.length = 25 := by
    rw [hscript,hpush]
    simp only [List.length_append,List.length_cons,List.length_nil]
    omega
  have hlen : script.length < 2^31 := by
    rw [hlength]
    norm_num
  have hplain : ∀ c : UInt8, OP_PUSHDATA4 < c → ∀ rest, getOp ([c] ++ rest) = some ⟨c,[],rest⟩ :=
    fun c hc rest => getOp_plain (Or.inr hc) rest
  have hp2sh : ¬script.isPayToScriptHash = true := by
    unfold CScript.isPayToScriptHash
    rw [hlength]
    exact Bool.false_ne_true
  have hnull : isNullData script = .ok false := isNullData_cons (by decide)
  have hfirst : getOp2 script 0 = .ok (1,some (OP_DUP,[])) :=
    @getOp2_at script [] [OP_DUP] _ _ _ rfl hlen (hplain _ (by decide) _)
  have hpubkey : getOp2 [OP_PUBKEY,OP_CHECKSIG] 0 = .ok (1,some (OP_PUBKEY,[])) := by decide
  have hsolution : matchOp (pushOpcode hash.length,hash) (OP_PUBKEYHASH,[]) [] = some [hash] :=
    if_neg (not_not.mpr hhash)
  have hend : matchTemplate script [OP_DUP,OP_HASH160,OP_PUBKEYHASH,OP_EQUALVERIFY,OP_CHECKSIG] 1
      script.length 5 [hash] = .ok (some [hash]) := (matchTemplate_end le_rfl rfl).mpr ⟨rfl,rfl⟩
  have hmatch : matchTemplate script
      [OP_DUP,OP_HASH160,OP_PUBKEYHASH,OP_EQUALVERIFY,OP_CHECKSIG] 6 0 0 [] = .ok (some [hash]) := by
    refine @matchTemplate_step script [] [OP_DUP] _ _ 0 1 5 (OP_DUP,[]) (OP_DUP,[]) [] [] _ rfl hlen
      (hplain _ (by decide) _) (by decide) (by decide) (by decide) (by decide) ?_
    refine @matchTemplate_step script [OP_DUP] [OP_HASH160]
      (pushData hash ++ [OP_EQUALVERIFY,OP_CHECKSIG]) _ 1 2 4 (OP_HASH160,[])
      (OP_HASH160,[]) [] [] _ (by rw [hscript,List.append_assoc]; rfl) hlen
      (hplain _ (by decide) _) (by decide) (by decide) (by decide) (by decide) ?_
    refine @matchTemplate_step script [OP_DUP,OP_HASH160] (pushData hash)
      [OP_EQUALVERIFY,OP_CHECKSIG] _ 2 3 3 (pushOpcode hash.length,hash) (OP_PUBKEYHASH,[]) []
      [hash] _ rfl hlen (getOp_pushData_eq hash _ (by omega)) (by decide) (by decide) (by decide)
      hsolution ?_
    refine @matchTemplate_step script _ [OP_EQUALVERIFY] [OP_CHECKSIG] _ 3 4 2 (OP_EQUALVERIFY,[])
      (OP_EQUALVERIFY,[]) [hash] [hash] _ (by rw [hscript]; simp only [List.append_assoc]; rfl) hlen
      (hplain _ (by decide) _) (by decide) (by decide) (by decide) rfl ?_
    refine @matchTemplate_step script _ [OP_CHECKSIG] [] _ 4 5 1 (OP_CHECKSIG,[]) (OP_CHECKSIG,[])
      [hash] [hash] _ (by rw [hscript]; simp only [List.append_assoc]; rfl) hlen
      (hplain _ (by decide) _) (by decide) (by decide) (by decide) rfl ?_
    simp only [List.append_assoc]
    exact hend
  rw [solver_scan hp2sh hnull]
  unfold mTemplates
  rw [scanTemplates_none (matchTemplate_first hfirst hpubkey (by decide) (by decide) rfl),
    @scanTemplates_some _ (.pubkeyhash,_) _ _ hmatch]
  rfl

theorem solver_scripthash {hash : Bytes} (hhash : hash.length = 20) :
    solver ([OP_HASH160] ++ pushData hash ++ [OP_EQUAL]) = .ok ⟨true,.scripthash,[hash]⟩ := by
  rw [pushData_hash hhash]
  have hlength : ([OP_HASH160] ++ 0x14::hash ++ [OP_EQUAL]).length = 23 := by
    simp only [List.length_append,List.length_cons,List.length_nil]
    omega
  have hlast : ([OP_HASH160] ++ 0x14::hash ++ [OP_EQUAL])[22]? = some OP_EQUAL := by
    rw [List.getElem?_append_right (by simp [hhash])]
    simp [hhash]
  have hp2sh : CScript.isPayToScriptHash ([OP_HASH160] ++ 0x14::hash ++ [OP_EQUAL]) = true := by
    unfold CScript.isPayToScriptHash
    rw [hlength,hlast]
    rfl
  unfold solver
  rw [if_pos hp2sh,readAt_ok (by rw [hlength]; decide)]
  have htake : (([OP_HASH160] ++ 0x14::hash ++ [OP_EQUAL]).drop 2).take 20 = hash := by
    change (hash ++ [OP_EQUAL]).take 20 = hash
    rw [← hhash,List.take_left]
  rw [htake]
  rfl

theorem uint160OfVch_leBytes (id : Uint160) : uint160OfVch (leBytes 20 id.toNat) = .ok id := by
  refine bind_ok.mpr ⟨(),require_error_ok.mpr (leBytes_length 20 _),?_⟩
  rw [ofLeBytes_leBytes,Nat.mod_eq_of_lt (lt_of_lt_of_eq id.isLt (by norm_num)),BitVec.ofNat_toNat,
    BitVec.setWidth_eq]

theorem extractDestination_getScript [Crypto] {dest : CTxDestination}
    (h : dest ≠ .noDestination) : ∃ script, getScriptForDestination dest = .ok script ∧
      extractDestination script = .ok (some dest) := by
  have hshort : ∀ id : Uint160, (pushData (leBytes 20 id.toNat)).length = 21 := fun id => by
    rw [pushData_hash (leBytes_length 20 _),List.length_cons,leBytes_length]
  cases dest with
  | noDestination => exact absurd rfl h
  | keyID id =>
    have hlen := hshort id
    refine ⟨[OP_DUP,OP_HASH160] ++ pushData (leBytes 20 id.toNat) ++ [OP_EQUALVERIFY,OP_CHECKSIG],
      ?_,?_⟩
    · unfold getScriptForDestination
      simp only [pushVector_eq,insertEnd_append]
      refine insertEnd_ok.mpr ⟨by simp only [List.nil_append,List.append_assoc]; rfl,?_⟩
      simp only [List.length_append,List.length_cons,List.length_nil,hlen]
      norm_num
    · refine bind_ok.mpr ⟨_,solver_pubkeyhash (leBytes_length 20 _),?_⟩
      dsimp only
      rw [if_neg (by decide),if_neg (by decide),if_pos rfl]
      exact bind_ok.mpr ⟨_,rfl,bind_ok.mpr ⟨_,uint160OfVch_leBytes id,rfl⟩⟩
  | scriptID id =>
    have hlen := hshort id
    refine ⟨[OP_HASH160] ++ pushData (leBytes 20 id.toNat) ++ [OP_EQUAL],?_,?_⟩
    · unfold getScriptForDestination
      simp only [pushVector_eq,insertEnd_append]
      refine insertEnd_ok.mpr ⟨by simp only [List.nil_append,List.append_assoc],?_⟩
      simp only [List.length_append,List.length_cons,List.length_nil,hlen]
      norm_num
    · refine bind_ok.mpr ⟨_,solver_scripthash (leBytes_length 20 _),?_⟩
      dsimp only
      rw [if_neg (by decide),if_neg (by decide),if_neg (by decide),if_pos rfl]
      exact bind_ok.mpr ⟨_,rfl,bind_ok.mpr ⟨_,uint160OfVch_leBytes id,rfl⟩⟩

/-- `Solver` ends inside the scripts on any bytes; a multisignature is a script of this form, and what
is built from keys or a destination is taken apart to them. -/
theorem solver_standard [Crypto] :
    (∀ script, ∃ r, solver script = .ok r) ∧
    (∀ script sols, solver script = .ok ⟨true,.multisig,sols⟩ ↔
      ∃ (m : ℕ) (pushes : List KeyPush), 1 ≤ m ∧ m ≤ pushes.length ∧ pushes.length ≤ 16 ∧
        script = multisigScript m pushes.length pushes ∧
        sols = multisigSolutions m pushes.length pushes) ∧
    (∀ (m : ℕ) (keys : List Bytes), 1 ≤ m → m ≤ keys.length → keys.length ≤ 16 →
      (∀ key ∈ keys, CPubKey.isValid key = true) →
        ∃ script, getScriptForMultisig m keys = .ok script ∧ solver script =
          .ok ⟨true,.multisig,[[UInt8.ofNat m]] ++ keys ++ [[UInt8.ofNat keys.length]]⟩) ∧
    ∀ dest, dest ≠ .noDestination → ∃ script, getScriptForDestination dest = .ok script ∧
      extractDestination script = .ok (some dest) := by
  refine ⟨fun script => ?_,fun script sols => ⟨fun h => ?_,?_⟩,
    fun m keys h1 hm hn hvalid => solver_getScriptForMultisig h1 hm hn hvalid,
    fun dest => extractDestination_getScript⟩
  · obtain ⟨r,hr,_⟩ := solver_spec script
    exact ⟨r,hr⟩
  · obtain ⟨r,hr,hmulti⟩ := solver_spec script
    rw [hr] at h
    obtain ⟨m,_,n,hn,pushes,hscript,hsols,h1,hmn,rfl⟩ := hmulti sols (Except.ok.inj h)
    exact ⟨m,pushes,h1,hmn,hn,hscript,hsols⟩
  · rintro ⟨m,pushes,h1,hm,hn,rfl,rfl⟩
    exact solver_multisigScript h1 hm hn rfl

end Sidechain
