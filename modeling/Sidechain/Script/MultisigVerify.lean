import Sidechain.Script.MultisigSpend

/-! When a multisignature is verified, bare or behind a script hash: the signatures match keys in
order, and no signature is deleted out of the script. -/
namespace Sidechain
open Run

section
variable [Crypto] {flags : ScriptFlags} {checker : BaseSignatureChecker}

/-- Signatures that are accepted verify for keys that follow each other. -/
theorem multiSigLoop_sound {code : CScript} {sigs keys : List valtype}
    (h : multiSigLoop flags checker code sigs keys = .ok true) :
    ∃ matched, matched.Sublist keys ∧
      List.Forall₂ (fun sig key => checker.checkSig sig key code = true) sigs matched := by
  induction keys generalizing sigs with
  | nil =>
    cases sigs with
    | nil => exact ⟨[],List.Sublist.refl _,List.Forall₂.nil⟩
    | cons sig sigs => cases h
  | cons key keys ih =>
    cases sigs with
    | nil => exact ⟨[],List.nil_sublist _,List.Forall₂.nil⟩
    | cons sig sigs =>
      unfold multiSigLoop at h
      obtain ⟨_,_,h⟩ := bind_ok.mp h
      split_ifs at h with hsig hmore hmore
      · cases h
      · obtain ⟨matched,hsub,hall⟩ := ih h
        exact ⟨key::matched,hsub.cons_cons key,List.Forall₂.cons hsig hall⟩
      · cases h
      · obtain ⟨matched,hsub,hall⟩ := ih h
        exact ⟨matched,hsub.cons key,hall⟩

/-- Signatures that verify for keys that follow each other are accepted, if they and the keys are
encoded correctly. -/
theorem multiSigLoop_complete {code : CScript} {sigs keys matched : List valtype}
    (henc : ∀ sig ∈ sigs, ∀ key ∈ keys, checkEncodings flags sig key = .ok ())
    (hsub : matched.Sublist keys)
    (hall : List.Forall₂ (fun sig key => checker.checkSig sig key code = true) sigs matched) :
    multiSigLoop flags checker code sigs keys = .ok true := by
  induction keys generalizing sigs matched with
  | nil =>
    obtain rfl := List.sublist_nil.mp hsub
    cases hall
    rfl
  | cons key keys ih =>
    cases hall with
    | nil => rfl
    | cons hfirst hrest =>
      rename_i sig key' sigs matched
      have hlen := hrest.length_eq
      have hkeys := fun s hs k hk => henc s hs k (List.mem_cons_of_mem _ hk)
      unfold multiSigLoop
      refine bind_ok.mpr ⟨(),henc sig List.mem_cons_self key List.mem_cons_self,?_⟩
      by_cases hsig : checker.checkSig sig key code = true
      · have hsub' : matched.Sublist keys := by
          have := hsub.tail
          exact this
        have hle := hsub'.length_le
        rw [if_pos hsig,if_neg (by omega)]
        exact ih (fun s hs => hkeys s (List.mem_cons_of_mem _ hs)) hsub' hrest
      · have hsub' : (key'::matched).Sublist keys := by
          rcases List.sublist_cons_iff.mp hsub with h | ⟨r,heq,_⟩
          · exact h
          · obtain ⟨rfl,_⟩ := List.cons.inj heq
            exact absurd hfirst hsig
        have hle := hsub'.length_le
        rw [List.length_cons] at hle
        rw [if_neg hsig,if_neg (by rw [List.length_cons]; omega)]
        exact ih hkeys hsub' (List.Forall₂.cons hfirst hrest)

omit [Crypto] in
theorem opChunks_multisigScript {k n : ℕ} (hk : k ≤ 16) (hn : n ≤ 16) (pushes : List KeyPush) :
    (multisigScript k n pushes).opChunks =
      ([smallIntOpcode k] :: pushes.map KeyPush.bytes ++ [[smallIntOpcode n],[OP_CHECKMULTISIG]],
        []) := by
  have hkeys : CScript.opChunks (pushes.flatMap KeyPush.bytes ++
      [smallIntOpcode n,OP_CHECKMULTISIG]) =
        (pushes.map KeyPush.bytes ++ [[smallIntOpcode n],[OP_CHECKMULTISIG]],[]) := by
    induction pushes with
    | nil => exact opChunks_match (getOp_plain (smallIntOpcode_plain hn))
    | cons p pushes ih =>
      rw [List.flatMap_cons,List.append_assoc,opChunks_match p.getOp_bytes,ih]
      rfl
  have hfirst := @opChunks_match [smallIntOpcode k] _ _ (getOp_plain (smallIntOpcode_plain hk))
    (pushes.flatMap KeyPush.bytes ++ [smallIntOpcode n,OP_CHECKMULTISIG])
  rw [hkeys] at hfirst
  exact hfirst

omit [Crypto] in
theorem isValidSignatureEncoding_form {sig : valtype} (h : isValidSignatureEncoding sig = true) :
    9 ≤ sig.length ∧ sig.length ≤ 73 ∧ sig.head? = some 0x30 := by
  have hshort : ¬ sig.length < 9 := fun hshort => by
    rw [isValidSignatureEncoding,if_pos hshort] at h
    cases h
  have hlong : ¬ sig.length > 73 := fun hlong => by
    rw [isValidSignatureEncoding,if_neg hshort,if_pos hlong] at h
    cases h
  have hhead : ¬ byteAt sig 0 ≠ 0x30 := fun hhead => by
    rw [isValidSignatureEncoding,if_neg hshort,if_neg hlong,if_pos hhead] at h
    cases h
  refine ⟨not_lt.mp hshort,not_lt.mp hlong,?_⟩
  cases sig with
  | nil => exact absurd (Nat.zero_lt_succ _) hshort
  | cons b sig => exact congrArg some (not_not.mp hhead)

omit [Crypto] in
theorem isValid_head {key : valtype} (h : CPubKey.isValid key = true) : key.head? ≠ some 0x30 := by
  cases key with
  | nil => exact nofun
  | cons b key =>
    intro hhead
    cases hhead
    cases h

omit [Crypto] in
theorem findAndDelete_multisig {k n : ℕ} (h1 : 1 ≤ k) (hk : k ≤ 16) (h1n : 1 ≤ n) (hn : n ≤ 16)
    {pushes : List KeyPush} (hkeys : ∀ p ∈ pushes, CPubKey.isValid p.key = true) {sig : valtype}
    (hsig : sig = [] ∨ isValidSignatureEncoding sig = true) :
    (multisigScript k n pushes).findAndDelete (pushData sig) = multisigScript k n pushes := by
  have hlen : sig.length ≤ 73 := by
    rcases hsig with rfl | hsig
    · exact Nat.zero_le _
    · exact (isValidSignatureEncoding_form hsig).2.1
  have hpush : appendItem [] (.data sig) = .ok (pushData sig) := by
    refine appendItem_fits (fun _ h => nomatch h) ?_
    have : (pushData sig).length ≤ sig.length + 1 := by
      unfold pushData
      rw [if_pos (lt_of_le_of_lt hlen (by decide)),List.length_append,leBytes_length]
      omega
    change 0 + (pushData sig).length < 2^31
    omega
  have hread : ∀ (opcode : UInt8) (vch : Bytes), getOp (pushData sig ++ []) =
      some ⟨opcode,vch,[]⟩ → opcode = pushOpcode sig.length ∧ vch = sig := by
    intro opcode vch h
    rw [getOp_pushData_eq sig [] (by omega)] at h
    cases h
    exact ⟨rfl,rfl⟩
  have hplain : ∀ opcode : UInt8, OP_PUSHDATA4 < opcode → [opcode] ≠ pushData sig := by
    intro opcode hop heq
    have h := getOp_plain (Or.inr hop) []
    rw [heq] at h
    obtain ⟨rfl,_⟩ := hread _ _ h
    exact absurd (pushOpcode_le _) (UInt8.not_le.mpr hop)
  have hsmall : ∀ i : ℕ, 1 ≤ i → i ≤ 16 → OP_PUSHDATA4 < smallIntOpcode i := by
    intro i hi hi'
    rw [UInt8.lt_iff_toNat_lt,smallIntOpcode_toNat hi' (by omega)]
    change 78 < _
    omega
  obtain ⟨_,hdelete,hflat,_⟩ := findAndDelete_push (multisigScript k n pushes) sig _ hpush
  rw [hdelete]
  conv_rhs => rw [hflat]
  congr 2
  rw [List.filter_eq_self,opChunks_multisigScript hk hn]
  intro chunk hchunk
  rw [decide_eq_true_eq]
  rcases List.mem_append.mp hchunk with hchunk | hchunk
  · rcases List.mem_cons.mp hchunk with rfl | hchunk
    · exact hplain _ (hsmall k h1 hk)
    · obtain ⟨p,hp,rfl⟩ := List.mem_map.mp hchunk
      intro heq
      have h := p.getOp_bytes []
      rw [heq] at h
      obtain ⟨_,hkey⟩ := hread _ _ h
      rcases hsig with rfl | hsig
      · have := p.size
        rw [hkey,List.length_nil] at this
        omega
      · refine isValid_head (hkeys p hp) ?_
        rw [hkey]
        exact (isValidSignatureEncoding_form hsig).2.2
  · rcases List.mem_cons.mp hchunk with rfl | hchunk
    · exact hplain _ (hsmall n h1n hn)
    · rw [List.mem_singleton.mp hchunk]
      exact hplain _ (by decide)

omit [Crypto] in
theorem findAndDelete_multisig_all {k n : ℕ} (h1 : 1 ≤ k) (hk : k ≤ 16) (h1n : 1 ≤ n)
    (hn : n ≤ 16) {pushes : List KeyPush} (hkeys : ∀ p ∈ pushes, CPubKey.isValid p.key = true)
    {sigs : List valtype} (hsigs : ∀ sig ∈ sigs, sig = [] ∨ isValidSignatureEncoding sig = true) :
    sigs.foldl (fun code sig => code.findAndDelete (pushData sig)) (multisigScript k n pushes) =
      multisigScript k n pushes := by
  induction sigs with
  | nil => rfl
  | cons sig sigs ih =>
    rw [List.foldl_cons,findAndDelete_multisig h1 hk h1n hn hkeys (hsigs sig List.mem_cons_self)]
    exact ih fun s hs => hsigs s (List.mem_cons_of_mem _ hs)

omit [Crypto] in
theorem isPayToScriptHash_form {script : CScript} (h : script.isPayToScriptHash = true) :
    ∃ hash : Bytes, hash.length = 20 ∧ script = OP_HASH160::(pushData hash ++ [OP_EQUAL]) := by
  unfold CScript.isPayToScriptHash at h
  simp only [Bool.and_eq_true,beq_iff_eq] at h
  obtain ⟨⟨⟨hlen,h0⟩,h1⟩,h22⟩ := h
  obtain ⟨a,b,rest,rfl⟩ : ∃ a b rest, script = a::b::rest := by
    match script with
    | a::b::rest => exact ⟨a,b,rest,rfl⟩
  obtain rfl : a = OP_HASH160 := Option.some.inj h0
  obtain rfl : b = 0x14 := Option.some.inj h1
  rw [List.length_cons,List.length_cons] at hlen
  have hlast : rest.getLast? = some OP_EQUAL := by
    rw [List.getLast?_eq_getElem?,show rest.length - 1 = 20 by omega]
    exact h22
  obtain ⟨hash,rfl⟩ := List.getLast?_eq_some_iff.mp hlast
  rw [List.length_append,List.length_singleton] at hlen
  refine ⟨hash,by omega,?_⟩
  rw [pushData_hash (by omega)]
  rfl

theorem evalScript_scriptHash {hash : Bytes} (hhash : hash.length = 20) {x : valtype}
    {S S' : List valtype} :
    evalScript (x::S) (OP_HASH160::(pushData hash ++ [OP_EQUAL])) flags checker = .ok S' ↔
      S.length + 2 ≤ MAX_STACK_SIZE ∧
        S' = vchBool (serializeBits 20 (Crypto.hash160 x) == hash) :: S := by
  have hparse : CScript.parse (OP_HASH160::(pushData hash ++ [OP_EQUAL])) =
      some [⟨OP_HASH160,[],pushData hash ++ [OP_EQUAL]⟩,⟨pushOpcode hash.length,hash,[OP_EQUAL]⟩,
        ⟨OP_EQUAL,[],[]⟩] :=
    parse_cons (getOp_plain (Or.inr (by decide)) _)
      (parse_cons (getOp_pushData_eq hash _ (by omega)) rfl)
  have hlength : (OP_HASH160::(pushData hash ++ [OP_EQUAL])).length ≤ MAX_SCRIPT_SIZE := by
    rw [pushData_hash hhash,List.length_cons,List.length_append,List.length_cons,hhash]
    decide
  generalize (OP_HASH160::(pushData hash ++ [OP_EQUAL]) : CScript) = script at hparse hlength
  have hfirst : evalStep flags checker ⟨OP_HASH160,[],pushData hash ++ [OP_EQUAL]⟩
      { stack := x::S, pbegincodehash := script } = checkStackSize
        { stack := serializeBits 20 (Crypto.hash160 x)::S, nOpCount := 1,
          pbegincodehash := script } := rfl
  have hlast : evalStep flags checker ⟨OP_EQUAL,[],[]⟩
      { stack := hash::serializeBits 20 (Crypto.hash160 x)::S, nOpCount := 1,
        pbegincodehash := script } = checkStackSize
          { stack := vchBool (serializeBits 20 (Crypto.hash160 x) == hash)::S, nOpCount := 2,
            pbegincodehash := script } := rfl
  have hmin : checkMinimalPush hash (pushOpcode hash.length) = true :=
    checkMinimalPush_pushOpcode (by omega)
  rw [evalScript_ok]
  constructor
  · rintro ⟨_,ops,m,hparse',hrun,_,rfl⟩
    rw [hparse] at hparse'
    cases hparse'
    obtain ⟨m₁,h,hrun⟩ := foldlM_cons_ok.mp hrun
    rw [hfirst] at h
    obtain ⟨_,rfl⟩ := checkStackSize_ok.mp h
    obtain ⟨m₂,h,hrun⟩ := foldlM_cons_ok.mp hrun
    obtain ⟨_,hdepth,rfl⟩ := (evalStep_push_iff (pushOpcode_le _) rfl).mp h
    have h := foldlM_singleton_ok.mp hrun
    dsimp only at h hdepth
    rw [hlast] at h
    obtain ⟨_,rfl⟩ := checkStackSize_ok.mp h
    rw [List.length_cons,List.length_nil] at hdepth
    exact ⟨by omega,rfl⟩
  · rintro ⟨hdepth,rfl⟩
    have hsize : hash.length ≤ MAX_SCRIPT_ELEMENT_SIZE := by
      rw [hhash]
      decide
    refine ⟨hlength,_,_,hparse,foldlM_cons_ok.mpr ⟨_,hfirst.trans (checkStackSize_ok.mpr ⟨?_,rfl⟩),
      foldlM_cons_ok.mpr ⟨_,(evalStep_push_iff (pushOpcode_le _) rfl).mpr
        ⟨⟨hsize,fun _ => hmin⟩,?_,rfl⟩,
          foldlM_singleton_ok.mpr (hlast.trans (checkStackSize_ok.mpr ⟨?_,rfl⟩))⟩⟩,rfl,rfl⟩
    · change (_::S).length + 0 ≤ _
      rw [List.length_cons]
      omega
    · change (_::S).length + 1 + 0 ≤ _
      rw [List.length_cons]
      omega
    · change (_::S).length + 0 ≤ _
      rw [List.length_cons]
      omega

theorem verifyStack_ok {scriptSig scriptPubKey : CScript} {final : List valtype} :
    verifyStack scriptSig scriptPubKey flags checker = .ok (.ok final) ↔
      ∃ stackCopy stack, evalScript [] scriptSig flags checker = .ok stackCopy ∧
        evalTrue stackCopy scriptPubKey flags checker = .ok stack ∧
        if hasFlag flags SCRIPT_VERIFY_P2SH && scriptPubKey.isPayToScriptHash then
          scriptSig.isPushOnly ∧ ∃ pubKey2 rest, stackCopy = pubKey2::rest ∧
            evalTrue rest pubKey2 flags checker = .ok final
        else final = stack := by
  unfold verifyStack
  cases hsig : evalScript [] scriptSig flags checker with
  | error e =>
    refine iff_of_false (fun h => nomatch h) ?_
    rintro ⟨_,_,h,_⟩
    cases h
  | ok stackCopy =>
    dsimp only
    cases htrue : evalTrue stackCopy scriptPubKey flags checker with
    | error e =>
      refine iff_of_false (fun h => nomatch h) ?_
      rintro ⟨_,_,h,htrue',_⟩
      cases h
      rw [htrue] at htrue'
      cases htrue'
    | ok stack =>
      dsimp only
      constructor
      · intro h
        refine ⟨stackCopy,stack,rfl,htrue,?_⟩
        split_ifs at h ⊢ with hp2sh
        · unfold evalRedeemScript at h
          split_ifs at h with hpush
          · cases h
          cases stackCopy with
          | nil => cases h
          | cons pubKey2 rest =>
            exact ⟨by simpa using hpush,pubKey2,rest,rfl,Except.ok.inj h⟩
        · cases h
          rfl
      · rintro ⟨_,_,h,htrue',hrest⟩
        cases h
        rw [htrue] at htrue'
        cases htrue'
        split_ifs at hrest ⊢ with hp2sh
        · obtain ⟨hpush,pubKey2,rest,rfl,heval⟩ := hrest
          unfold evalRedeemScript
          rw [hpush,Bool.not_true,if_neg Bool.false_ne_true]
          exact congrArg Except.ok heval
        · rw [hrest]

/-- What `VerifyScript` asks of the stack in the end. -/
theorem verifies_iff {scriptSig scriptPubKey : CScript} :
    Verifies scriptSig scriptPubKey flags checker ↔
      (hasFlag flags SCRIPT_VERIFY_SIGPUSHONLY → scriptSig.isPushOnly) ∧
      ∃ final, verifyStack scriptSig scriptPubKey flags checker = .ok (.ok final) ∧
        (hasFlag flags SCRIPT_VERIFY_CLEANSTACK → hasFlag flags SCRIPT_VERIFY_P2SH ∧
          final.length = 1) := by
  unfold Verifies verifyScript
  by_cases hpush : (hasFlag flags SCRIPT_VERIFY_SIGPUSHONLY && !scriptSig.isPushOnly) = true
  · rw [if_pos hpush]
    refine iff_of_false (fun h => nomatch h) fun h => ?_
    rw [Bool.and_eq_true,Bool.not_eq_true'] at hpush
    have := h.1 hpush.1
    rw [hpush.2] at this
    cases this
  · rw [if_neg hpush]
    have hpush' : hasFlag flags SCRIPT_VERIFY_SIGPUSHONLY → scriptSig.isPushOnly := by
      simpa using hpush
    cases hstack : verifyStack scriptSig scriptPubKey flags checker with
    | error h =>
      refine iff_of_false (fun h => nomatch h) ?_
      rintro ⟨_,_,h,_⟩
      cases h
    | ok r =>
      cases r with
      | error e =>
        refine iff_of_false (fun h => nomatch h) ?_
        rintro ⟨_,_,h,_⟩
        cases h
      | ok final =>
        dsimp only
        rw [checkCleanStack_ok]
        constructor
        · exact fun h => ⟨hpush',final,rfl,h⟩
        · rintro ⟨_,_,h,hclean⟩
          cases h
          exact hclean

end
end Sidechain
