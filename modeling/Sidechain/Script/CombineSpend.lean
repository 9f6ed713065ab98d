import Sidechain.Script.CombineMultisig

/-! Combining two signature scripts of a multisignature, bare or behind a script hash: no signature is
lost, and what verified before verifies afterwards. -/
namespace Sidechain
open Run

section
variable [Crypto] {flags : ScriptFlags} {checker : BaseSignatureChecker} {k : ℕ}
  {pushes : List KeyPush}

/-- The script itself, or its hash, with the script last in what spends it. -/
inductive SpentWith (script : CScript) : CScript → List valtype → Prop
  | bare : SpentWith script script []
  | scriptHash {scriptPubKey : CScript} (form : scriptPubKey.isPayToScriptHash = true)
      (size : script.length ≤ MAX_SCRIPT_ELEMENT_SIZE) : SpentWith script scriptPubKey [script]

theorem evalTrue_ok {S S' : List valtype} {script : CScript} :
    evalTrue S script flags checker = .ok S' ↔
      evalScript S script flags checker = .ok S' ∧ topIsTrue S' = true := by
  unfold evalTrue
  rw [bind_ok]
  constructor
  · rintro ⟨s,hscript,h⟩
    split_ifs at h with htop
    cases h
    exact ⟨hscript,htop⟩
  · exact fun ⟨hscript,htop⟩ => ⟨S',hscript,if_pos htop⟩

/-- The signatures that `OP_CHECKMULTISIG` accepts, on a stack a multisignature is spent from. -/
theorem evalTrue_multisig_sound (h1 : 1 ≤ k) (hk : k ≤ pushes.length) (hn : pushes.length ≤ 16)
    {S S' : List valtype}
    (h : evalTrue S (multisigScript k pushes.length pushes) flags checker = .ok S') :
    (∀ p ∈ pushes, hasFlag flags SCRIPT_VERIFY_MINIMALDATA → checkMinimalPush p.key p.opcode) ∧
      ∃ sigs dummy rest, S = sigs ++ dummy::rest ∧ sigs.length = k ∧
        multiSigLoop flags checker
          (sigs.foldl (fun code sig => code.findAndDelete (pushData sig))
            (multisigScript k pushes.length pushes)) sigs (pushes.map KeyPush.key).reverse =
          .ok true := by
  obtain ⟨heval,htop⟩ := evalTrue_ok.mp h
  obtain ⟨hmin,_,sigs,dummy,rest,b,hS,hlen,hloop,_,rfl⟩ := (evalScript_multisig h1 hk hn).mp heval
  obtain rfl : b = true := by
    cases b with
    | true => rfl
    | false => cases htop
  exact ⟨hmin,sigs,dummy,rest,hS,hlen,hloop⟩

theorem evalTrue_multisig_complete (h1 : 1 ≤ k) (hk : k ≤ pushes.length)
    (hn : pushes.length ≤ 16)
    (hmin : ∀ p ∈ pushes, hasFlag flags SCRIPT_VERIFY_MINIMALDATA →
      checkMinimalPush p.key p.opcode) {sigs : List valtype} (hlen : sigs.length = k)
    (hloop : multiSigLoop flags checker
      (sigs.foldl (fun code sig => code.findAndDelete (pushData sig))
        (multisigScript k pushes.length pushes)) sigs (pushes.map KeyPush.key).reverse =
      .ok true) :
    evalTrue (sigs ++ [[]]) (multisigScript k pushes.length pushes) flags checker =
      .ok [vchTrue] := by
  refine evalTrue_ok.mpr ⟨(evalScript_multisig h1 hk hn).mpr
    ⟨hmin,?_,sigs,[],[],true,rfl,hlen,hloop,fun _ => rfl,rfl⟩,rfl⟩
  rw [List.length_append,List.length_singleton]
  unfold MAX_STACK_SIZE
  omega

omit [Crypto] in
theorem multisigScript_not_p2sh (h1 : 1 ≤ k) (hk : k ≤ 16) :
    (multisigScript k pushes.length pushes).isPayToScriptHash = false := by
  have hne : smallIntOpcode k ≠ OP_HASH160 := by
    intro h
    have hnat := smallIntOpcode_toNat hk (by omega)
    rw [h] at hnat
    change 169 = 80 + k at hnat
    omega
  rw [Bool.eq_false_iff]
  intro h
  obtain ⟨_,_,hform⟩ := isPayToScriptHash_form h
  exact hne (List.cons.inj hform).1

theorem Verifies.transfer {script scriptPubKey scriptSig : CScript} {tail items out : List valtype}
    (hp2sh : script.isPayToScriptHash = false) (hspent : SpentWith script scriptPubKey tail)
    (hin : PushesTo scriptSig (items ++ tail)) (hv : Verifies scriptSig scriptPubKey flags checker)
    {scriptSig' : CScript} (hpush : PushesTo scriptSig' (out ++ tail))
    (heval : evalScript [] scriptSig' flags checker = .ok (out ++ tail).reverse)
    (hcount : out.length + 2 ≤ MAX_STACK_SIZE)
    (hout : ∀ S, evalTrue items.reverse script flags checker = .ok S →
      evalTrue out.reverse script flags checker = .ok [vchTrue]) :
    Verifies scriptSig' scriptPubKey flags checker := by
  obtain ⟨_,final,hstack,hclean⟩ := verifies_iff.mp hv
  obtain ⟨stackCopy,stack,hcopy,htrue,hfinal⟩ := verifyStack_ok.mp hstack
  have hcopy' := hin.stack_eq hcopy
  rw [List.append_nil] at hcopy'
  subst hcopy'
  cases hspent with
  | bare =>
    rw [List.append_nil] at htrue heval
    refine verifies_iff.mpr ⟨fun _ => hpush.isPushOnly,[vchTrue],verifyStack_ok.mpr
      ⟨_,_,heval,hout _ htrue,?_⟩,fun hflag => ⟨(hclean hflag).1,rfl⟩⟩
    rw [hp2sh,Bool.and_false,if_neg Bool.false_ne_true]
  | scriptHash form size =>
    obtain ⟨hash,hhash,rfl⟩ := isPayToScriptHash_form form
    rw [List.reverse_append,List.reverse_singleton,List.singleton_append] at htrue heval hfinal
    obtain ⟨hhashed,htop⟩ := evalTrue_ok.mp htrue
    obtain ⟨_,rfl⟩ := (evalScript_scriptHash hhash).mp hhashed
    have hequal : (serializeBits 20 (Crypto.hash160 script) == hash) = true := by
      by_contra hne
      rw [Bool.not_eq_true] at hne
      rw [hne] at htop
      cases htop
    have htrue' : evalTrue (script::out.reverse) (OP_HASH160::(pushData hash ++ [OP_EQUAL])) flags
        checker = .ok (vchTrue::out.reverse) := by
      refine evalTrue_ok.mpr ⟨(evalScript_scriptHash hhash).mpr ⟨?_,?_⟩,rfl⟩
      · rw [List.length_reverse]
        exact hcount
      · rw [hequal]
        rfl
    rw [form,Bool.and_true] at hfinal
    cases hflag : hasFlag flags SCRIPT_VERIFY_P2SH with
    | true =>
      rw [hflag,if_pos rfl] at hfinal
      obtain ⟨_,pubKey2,rest,hcons,hredeem⟩ := hfinal
      obtain ⟨rfl,rfl⟩ := List.cons.inj hcons
      refine verifies_iff.mpr ⟨fun _ => hpush.isPushOnly,[vchTrue],verifyStack_ok.mpr
        ⟨_,_,heval,htrue',?_⟩,fun hc => ⟨hflag,rfl⟩⟩
      rw [form,hflag,Bool.and_true,if_pos rfl]
      exact ⟨hpush.isPushOnly,script,out.reverse,rfl,hout _ hredeem⟩
    | false =>
      refine verifies_iff.mpr ⟨fun _ => hpush.isPushOnly,vchTrue::out.reverse,verifyStack_ok.mpr
        ⟨_,_,heval,htrue',?_⟩,fun hc => ?_⟩
      · rw [hflag,Bool.false_and,if_neg Bool.false_ne_true]
      · have := (hclean hc).1
        rw [hflag] at this
        cases this

/-- A signature script that is run to its end: pushes within the limits of the interpreter. -/
structure SigPushes (scriptSig : CScript) (items : List valtype) : Prop where
  pushes : PushesTo scriptSig items
  length : scriptSig.length ≤ MAX_SCRIPT_SIZE
  count : items.length ≤ MAX_STACK_SIZE
  size : ∀ item ∈ items, item.length ≤ MAX_SCRIPT_ELEMENT_SIZE

theorem SigPushes.left {scriptSig : CScript} {items : List valtype}
    (h : SigPushes scriptSig items) :
    evalScriptLeft [] scriptSig SCRIPT_VERIFY_STRICTENC {} = items.reverse :=
  evalScriptLeft_of_ok (h.pushes.evalScript_eq rfl h.length h.count h.size)

omit [Crypto] in
theorem combineStacks_scriptHash {fuel : ℕ} {scriptPubKey spk : CScript} (hspk : spk ≠ [])
    (vSolutions sigs1 sigs2 : List valtype) :
    combineStacks checker (fuel+1) scriptPubKey .scripthash vSolutions (sigs1 ++ [spk])
        (sigs2 ++ [spk]) = solver spk >>= fun solved =>
      combineStacks checker fuel spk solved.typeRet solved.vSolutionsRet sigs1 sigs2 >>= fun result =>
        pushVector result spk := by
  obtain ⟨b,rest,rfl⟩ := List.exists_cons_of_ne_nil hspk
  conv_lhs => unfold combineStacks
  rw [List.getLast?_concat,List.getLast?_concat,List.dropLast_concat,List.dropLast_concat]

theorem combineSignatures_eq (h1 : 1 ≤ k) (hk : k ≤ pushes.length) (hn : pushes.length ≤ 16)
    {scriptPubKey scriptSig1 scriptSig2 : CScript} {tail items1 items2 : List valtype}
    (hspent : SpentWith (multisigScript k pushes.length pushes) scriptPubKey tail)
    (hsig1 : SigPushes scriptSig1 (items1 ++ tail)) (hsig2 : SigPushes scriptSig2 (items2 ++ tail)) :
    combineSignatures scriptPubKey checker scriptSig1 scriptSig2 =
      combineMultisig (multisigScript k pushes.length pushes) checker
        (multisigSolutions k pushes.length pushes) items1 items2 >>= tail.foldlM pushVector := by
  have hsolver := @solver_multisigScript k pushes.length pushes h1 hk hn rfl
  have hstacks : combineSignatures scriptPubKey checker scriptSig1 scriptSig2 =
      solver scriptPubKey >>= fun solved => combineStacks checker (items1 ++ tail).length
        scriptPubKey solved.typeRet solved.vSolutionsRet (items1 ++ tail) (items2 ++ tail) := by
    unfold combineSignatures
    rw [hsig1.left,hsig2.left]
    simp only [List.reverse_reverse,List.length_reverse]
  have hmultisig : ∀ fuel, combineStacks checker fuel (multisigScript k pushes.length pushes)
      .multisig (multisigSolutions k pushes.length pushes) items1 items2 =
        combineMultisig (multisigScript k pushes.length pushes) checker
          (multisigSolutions k pushes.length pushes) items1 items2 := by
    intro fuel
    unfold combineStacks
    rfl
  rw [hstacks]
  cases hspent with
  | bare =>
    rw [hsolver,List.append_nil,List.append_nil]
    change combineStacks checker _ _ .multisig _ _ _ = _
    rw [hmultisig]
    exact (bind_pure _).symm
  | scriptHash form size =>
    obtain ⟨hash,hhash,rfl⟩ := isPayToScriptHash_form form
    have hsolver' : solver (OP_HASH160::(pushData hash ++ [OP_EQUAL])) =
        .ok ⟨true,.scripthash,[hash]⟩ := solver_scripthash hhash
    have hne : multisigScript k pushes.length pushes ≠ [] := List.cons_ne_nil _ _
    rw [hsolver',List.length_append,List.length_singleton]
    change combineStacks checker (items1.length + 1) _ .scripthash _ _ _ = _
    rw [combineStacks_scriptHash hne,hsolver]
    change (combineStacks checker _ _ .multisig _ _ _ >>= _) = _
    rw [hmultisig]
    refine bind_congr fun result => ?_
    exact (bind_pure _).symm

/-- Signatures and keys that an interpreter with these flags accepts the encoding of. -/
structure WellEncoded (flags : ScriptFlags) (keys sigs : List valtype) : Prop where
  sigs : ∀ sig ∈ sigs, checkSignatureEncoding sig flags = .ok ()
  keys : ∀ key ∈ keys, CPubKey.isValid key = true ∧ checkPubKeyEncoding key flags = .ok ()

/-- A stack that spends the script holds signatures for as many keys as are required. -/
theorem held_of_evalTrue (h1 : 1 ≤ k) (hk : k ≤ pushes.length) (hn : pushes.length ≤ 16)
    (hdistinct : (pushes.map KeyPush.key).Nodup)
    (hkeys : ∀ p ∈ pushes, CPubKey.isValid p.key = true)
    (hempty : ∀ key, checker.checkSig [] key (multisigScript k pushes.length pushes) = false)
    {items all S : List valtype} (hall : items ⊆ all)
    (henc : ∀ item ∈ items, item = [] ∨ isValidSignatureEncoding item = true)
    (h : evalTrue items.reverse (multisigScript k pushes.length pushes) flags checker = .ok S) :
    k ≤ (heldKeys checker (multisigScript k pushes.length pushes) (pushes.map KeyPush.key)
      all).length := by
  obtain ⟨_,sigs,dummy,rest,hS,hlen,hloop⟩ := evalTrue_multisig_sound h1 hk hn h
  have hmem : ∀ sig ∈ sigs, sig ∈ items := by
    intro sig hsig
    rw [← List.mem_reverse,hS]
    exact List.mem_append_left _ hsig
  rw [findAndDelete_multisig_all h1 (hk.trans hn) (h1.trans hk) hn hkeys
    fun sig hsig => henc sig (hmem sig hsig)] at hloop
  obtain ⟨matched,hsub,hforall⟩ := multiSigLoop_sound hloop
  have hnodup : matched.Nodup := hsub.nodup (List.nodup_reverse.mpr hdistinct)
  have hheld : matched ⊆ heldKeys checker (multisigScript k pushes.length pushes)
      (pushes.map KeyPush.key) all := by
    intro key hkey
    obtain ⟨sig,hsig,hcheck⟩ : ∃ sig ∈ sigs,
        checker.checkSig sig key (multisigScript k pushes.length pushes) = true := by
      obtain ⟨i,hi,rfl⟩ := List.getElem_of_mem hkey
      have hi' : i < sigs.length := hforall.length_eq ▸ hi
      exact ⟨sigs[i],List.getElem_mem hi',(List.forall₂_iff_get.mp hforall).2 i hi' hi⟩
    refine List.mem_filter.mpr ⟨List.mem_reverse.mp (hsub.subset hkey),?_⟩
    refine List.any_eq_true.mpr ⟨sig,hall (hmem sig hsig),?_⟩
    rw [hcheck,Bool.and_true,bne_iff_ne]
    rintro rfl
    rw [hempty] at hcheck
    cases hcheck
  have hle := (hnodup.subperm hheld).length_le
  rw [← hforall.length_eq,hlen] at hle
  exact hle

theorem evalTrue_combined (h1 : 1 ≤ k) (hk : k ≤ pushes.length) (hn : pushes.length ≤ 16)
    (hdistinct : (pushes.map KeyPush.key).Nodup)
    (hempty : ∀ key, checker.checkSig [] key (multisigScript k pushes.length pushes) = false)
    {items all sigs S : List valtype} (hall : items ⊆ all)
    (henc : ∀ item ∈ all, item = [] ∨ isValidSignatureEncoding item = true)
    (hwell : WellEncoded flags (pushes.map KeyPush.key) all)
    (hsigs : List.Forall₂ (fun sig key => (sig ∈ all ∧ sig ≠ []) ∧
        checker.checkSig sig key (multisigScript k pushes.length pushes) = true) sigs
      ((heldKeys checker (multisigScript k pushes.length pushes) (pushes.map KeyPush.key)
        all).take k))
    (h : evalTrue items.reverse (multisigScript k pushes.length pushes) flags checker = .ok S) :
    evalTrue ([]::sigs ++ List.replicate (k - sigs.length) []).reverse
      (multisigScript k pushes.length pushes) flags checker = .ok [vchTrue] := by
  have hkeys : ∀ p ∈ pushes, CPubKey.isValid p.key = true := fun p hp =>
    (hwell.keys p.key (List.mem_map_of_mem hp)).1
  have hheld := held_of_evalTrue h1 hk hn hdistinct hkeys hempty hall
    (fun item hitem => henc item (hall hitem)) h
  have hlen : sigs.length = k := by
    rw [hsigs.length_eq,List.length_take]
    exact Nat.min_eq_left hheld
  have hin : ∀ sig ∈ sigs, sig ∈ all := fun sig hsig =>
    (((List.forall₂_and_left _ _).mp hsigs).1 sig hsig).1
  have hstack : ([]::sigs ++ List.replicate (k - sigs.length) []).reverse =
      sigs.reverse ++ [[]] := by
    rw [hlen,Nat.sub_self,List.replicate_zero,List.append_nil,List.reverse_cons]
  rw [hstack]
  obtain ⟨hmin,_⟩ := evalTrue_multisig_sound h1 hk hn h
  refine evalTrue_multisig_complete h1 hk hn hmin (by rw [List.length_reverse,hlen]) ?_
  rw [findAndDelete_multisig_all h1 (hk.trans hn) (h1.trans hk) hn hkeys
    fun sig hsig => henc sig (hin sig (List.mem_reverse.mp hsig))]
  have htake := (List.take_sublist k (heldKeys checker (multisigScript k pushes.length pushes)
    (pushes.map KeyPush.key) all)).trans List.filter_sublist
  refine multiSigLoop_complete (fun sig hsig key hkey => ?_) htake.reverse
    (List.forall₂_reverse_iff.mpr (hsigs.imp fun _ _ h => h.2))
  exact bind_ok.mpr ⟨(),hwell.sigs sig (hin sig (List.mem_reverse.mp hsig)),
    (hwell.keys key (List.mem_reverse.mp hkey)).2⟩

omit [Crypto] in
theorem one_lt_length_multisigScript {n : ℕ} :
    1 < (multisigScript k n pushes).length := by
  unfold multisigScript
  rw [List.cons_append,List.length_cons,List.length_append,List.length_cons]
  omega

omit [Crypto] in
/-- Values of the size of signatures are pushed within the limits of the interpreter, also with a script
after them. -/
theorem SpentWith.pushData_within {script scriptPubKey : CScript} {tail out : List valtype}
    (hspent : SpentWith script scriptPubKey tail) (hone : script.length ≠ 1)
    (hsize : ∀ item ∈ out, item.length ≤ 73 ∧ item.length ≠ 1) (hcount : out.length ≤ 17) :
    ((out ++ tail).flatMap pushData).length ≤ 9000 ∧
      (∀ item ∈ out ++ tail, item.length ≤ MAX_SCRIPT_ELEMENT_SIZE ∧ item.length ≠ 1) ∧
      (out ++ tail).length ≤ 18 := by
  have htail : tail.length ≤ 1 ∧ ∀ item ∈ tail,
      item.length ≤ MAX_SCRIPT_ELEMENT_SIZE ∧ item.length ≠ 1 := by
    cases hspent with
    | bare => exact ⟨Nat.zero_le _,fun _ h => nomatch h⟩
    | scriptHash form size =>
      refine ⟨le_rfl,fun item hitem => ?_⟩
      rw [List.mem_singleton.mp hitem]
      exact ⟨size,hone⟩
  have houtlen := length_flatMap_pushData_le (show 73 ≤ MAX_SCRIPT_ELEMENT_SIZE by decide)
    fun item hitem => (hsize item hitem).1
  have htaillen := length_flatMap_pushData_le le_rfl fun item hitem => (htail.2 item hitem).1
  have hmax : MAX_SCRIPT_ELEMENT_SIZE = 520 := rfl
  rw [hmax] at htaillen
  have htailcount := htail.1
  refine ⟨?_,fun item hitem => ?_,?_⟩
  · rw [List.flatMap_append,List.length_append]
    omega
  · rcases List.mem_append.mp hitem with hitem | hitem
    · exact ⟨(hsize item hitem).1.trans (by decide),(hsize item hitem).2⟩
    · exact htail.2 item hitem
  · rw [List.length_append]
    omega

/-- What is combined has, in the order of the keys, a signature for each of the first keys that either
script holds one for, up to the number required, and it verifies if one of the two does. -/
theorem combineSignatures_multisig (h1 : 1 ≤ k) (hk : k ≤ pushes.length)
    (hn : pushes.length ≤ 16) (hdistinct : (pushes.map KeyPush.key).Nodup)
    {scriptPubKey scriptSig1 scriptSig2 : CScript} {tail items1 items2 : List valtype}
    (hspent : SpentWith (multisigScript k pushes.length pushes) scriptPubKey tail)
    (hsig1 : SigPushes scriptSig1 (items1 ++ tail)) (hsig2 : SigPushes scriptSig2 (items2 ++ tail))
    (henc : ∀ item ∈ items1 ++ items2, item = [] ∨ isValidSignatureEncoding item = true)
    (hone : ∀ sig ∈ items1 ++ items2, ∀ key ∈ pushes.map KeyPush.key,
      ∀ other ∈ pushes.map KeyPush.key,
        checker.checkSig sig key (multisigScript k pushes.length pushes) = true →
        checker.checkSig sig other (multisigScript k pushes.length pushes) = true →
          other = key) :
    ∃ scriptSig sigs,
      combineSignatures scriptPubKey checker scriptSig1 scriptSig2 = .ok scriptSig ∧
      SigPushes scriptSig ([]::sigs ++ List.replicate (k - sigs.length) [] ++ tail) ∧
      List.Forall₂ (fun sig key => (sig ∈ items1 ++ items2 ∧ sig ≠ []) ∧
          checker.checkSig sig key (multisigScript k pushes.length pushes) = true) sigs
        ((heldKeys checker (multisigScript k pushes.length pushes) (pushes.map KeyPush.key)
          (items1 ++ items2)).take k) ∧
      ∀ flags, WellEncoded flags (pushes.map KeyPush.key) (items1 ++ items2) →
        (∀ key, checker.checkSig [] key (multisigScript k pushes.length pushes) = false) →
        Verifies scriptSig1 scriptPubKey flags checker ∨
          Verifies scriptSig2 scriptPubKey flags checker →
        Verifies scriptSig scriptPubKey flags checker := by
  have hsize : ∀ item ∈ items1 ++ items2, item.length ≤ 73 ∧ item.length ≠ 1 := by
    intro item hitem
    rcases henc item hitem with rfl | hvalid
    · exact ⟨Nat.zero_le _,Nat.zero_ne_one⟩
    · have := isValidSignatureEncoding_form hvalid
      omega
  obtain ⟨sigs,hcombine,hsigs⟩ := combineMultisig_spec (hk.trans hn) hn
    (fun item hitem => (hsize item hitem).1.trans (by decide)) hone
  have hin : ∀ sig ∈ sigs, sig ∈ items1 ++ items2 := fun sig hsig =>
    (((List.forall₂_and_left _ _).mp hsigs).1 sig hsig).1
  have hcount : sigs.length ≤ k := hsigs.length_eq ▸ List.length_take_le _ _
  have heq := @combineSignatures_eq _ checker _ _ h1 hk hn _ _ _ _ _ _ hspent hsig1 hsig2
  rw [hcombine] at heq
  generalize hout : []::sigs ++ List.replicate (k - sigs.length) [] = out at heq
  have houtsize : ∀ item ∈ out, item.length ≤ 73 ∧ item.length ≠ 1 := by
    intro item hitem
    rw [← hout,List.mem_append,List.mem_cons] at hitem
    rcases hitem with (rfl | hitem) | hitem
    · exact ⟨Nat.zero_le _,Nat.zero_ne_one⟩
    · exact hsize item (hin item hitem)
    · rw [List.eq_of_mem_replicate hitem]
      exact ⟨Nat.zero_le _,Nat.zero_ne_one⟩
  have houtcount : out.length = k + 1 := by
    rw [← hout,List.length_append,List.length_cons,List.length_replicate]
    omega
  obtain ⟨hbytes,hitems,hnumber⟩ := hspent.pushData_within one_lt_length_multisigScript.ne'
    houtsize (houtcount.le.trans (by omega))
  have hlimit : ((out ++ tail).flatMap pushData).length ≤ MAX_SCRIPT_SIZE :=
    hbytes.trans (by decide)
  have hpushes : PushesTo ((out ++ tail).flatMap pushData) (out ++ tail) :=
    pushesTo_flatMap fun item hitem => lt_of_le_of_lt (hitems item hitem).1 (by decide)
  refine ⟨(out ++ tail).flatMap pushData,sigs,?_,?_,hsigs,fun flags hwell hempty hv => ?_⟩
  · rw [heq]
    change tail.foldlM pushVector (out.flatMap pushData) = _
    rw [List.flatMap_append,List.length_append] at hbytes
    rw [pushVectors_eq (by omega),List.flatMap_append]
  · rw [hout]
    exact ⟨hpushes,hlimit,hnumber.trans (by decide),fun item hitem => (hitems item hitem).1⟩
  · have hnot := @multisigScript_not_p2sh k pushes h1 (hk.trans hn)
    have heval := @evalScript_pushData _ flags checker _ hlimit (hnumber.trans (by decide)) hitems
    have hroom : out.length + 2 ≤ MAX_STACK_SIZE := by
      rw [houtcount]
      unfold MAX_STACK_SIZE
      omega
    have hspends : ∀ items : List valtype, items ⊆ items1 ++ items2 → ∀ S,
        evalTrue items.reverse (multisigScript k pushes.length pushes) flags checker = .ok S →
          evalTrue out.reverse (multisigScript k pushes.length pushes) flags checker =
            .ok [vchTrue] := fun items hsub S h =>
      hout ▸ evalTrue_combined h1 hk hn hdistinct hempty hsub henc hwell hsigs h
    rcases hv with hv | hv
    · exact hv.transfer hnot hspent hsig1.pushes hpushes heval hroom
        (hspends items1 (List.subset_append_left _ _))
    · exact hv.transfer hnot hspent hsig2.pushes hpushes heval hroom
        (hspends items2 (List.subset_append_right _ _))

/-- The shortest signatures that are encoded correctly. -/
def shortSig (s : UInt8) : valtype := [0x30,6,2,1,1,2,1,s,1]

def compressedKey : KeyPush := ⟨33,2::List.replicate 32 0,by decide,Or.inl rfl⟩

/-- A key of the form that `CPubKey` knows and strict encoding does not. -/
def hybridKey : KeyPush := ⟨65,6::List.replicate 64 0,by decide,Or.inl rfl⟩

/-- Signature 1 verifies for the first key, and signature 2 for the second. -/
def twoKeys (first second : KeyPush) : BaseSignatureChecker where
  checkSig sig key _ :=
    sig == shortSig 1 && key == first.key || sig == shortSig 2 && key == second.key

omit [Crypto] in
theorem combineSignatures_two : letI : Crypto := digitCrypto
    let second : KeyPush := ⟨33,3::List.replicate 32 0,by decide,Or.inl rfl⟩
    let script := multisigScript 2 2 [compressedKey,second]
    let checker := twoKeys compressedKey second
    ∃ scriptSig sigs, combineSignatures script checker ([[],shortSig 2].flatMap pushData)
        ([[],shortSig 1,shortSig 2].flatMap pushData) = .ok scriptSig ∧
      SigPushes scriptSig ([]::sigs ++ List.replicate (2 - sigs.length) [] ++ []) ∧
      List.Forall₂ (fun sig key =>
        (sig ∈ [[],shortSig 2,[],shortSig 1,shortSig 2] ∧ sig ≠ []) ∧
          checker.checkSig sig key script = true) sigs [compressedKey.key,second.key] ∧
      Verifies scriptSig script SCRIPT_VERIFY_STRICTENC checker := by
  let : Crypto := digitCrypto
  intro second script checker
  have hpushes1 : SigPushes ([[],shortSig 2].flatMap pushData) ([[],shortSig 2] ++ []) :=
    ⟨pushesTo_flatMap (by decide),by decide,by decide,by decide⟩
  have hpushes2 : SigPushes ([[],shortSig 1,shortSig 2].flatMap pushData)
      ([[],shortSig 1,shortSig 2] ++ []) :=
    ⟨pushesTo_flatMap (by decide),by decide,by decide,by decide⟩
  obtain ⟨scriptSig,sigs,hcombine,hpushes,hsigs,hverifies⟩ :=
    @combineSignatures_multisig _ checker 2 [compressedKey,second] (by decide) (by decide)
      (by decide) (by decide) _ _ _ _ _ _ SpentWith.bare hpushes1 hpushes2 (by decide) (by decide)
  have hheld : (heldKeys checker script [compressedKey.key,second.key]
      ([[],shortSig 2] ++ [[],shortSig 1,shortSig 2])).take 2 =
        [compressedKey.key,second.key] := by decide
  refine ⟨scriptSig,sigs,hcombine,hpushes,hheld ▸ hsigs,
    hverifies SCRIPT_VERIFY_STRICTENC ⟨by decide,by decide⟩ (fun _ => rfl) (Or.inr ?_)⟩
  change verifyScript _ _ _ _ = _
  decide

omit [Crypto] in
theorem length_zeros (n : ℕ) : ((List.replicate n []).flatMap pushData).length = n := by
  induction n with
  | zero => rfl
  | succ n ih =>
    rw [List.replicate_succ,List.flatMap_cons,List.length_append,ih,Nat.add_comm]
    rfl

omit [Crypto] in
/-- A signature in front of too many empty values is lost. And with keys that are not encoded
correctly, what is combined with a signature for another key need not verify any more. -/
theorem combineSignatures_loses : letI : Crypto := digitCrypto
    (let script := multisigScript 1 1 [compressedKey]
      let checker := twoKeys compressedKey hybridKey
      let items := shortSig 1 :: List.replicate 10000 []
      isValidSignatureEncoding (shortSig 1) = true ∧ PushesTo (items.flatMap pushData) items ∧
        checker.checkSig (shortSig 1) compressedKey.key script = true ∧
        combineSignatures script checker (items.flatMap pushData) [] = .ok [OP_0,OP_0]) ∧
    (let script := multisigScript 1 2 [hybridKey,compressedKey]
      let checker := twoKeys hybridKey compressedKey
      let scriptSig1 := [[],shortSig 2].flatMap pushData
      let scriptSig2 := [[],shortSig 1].flatMap pushData
      Verifies scriptSig1 script SCRIPT_VERIFY_STRICTENC checker ∧
        combineSignatures script checker scriptSig1 scriptSig2 = .ok scriptSig2 ∧
        verifyScript scriptSig2 script SCRIPT_VERIFY_STRICTENC checker =
          .ok (.error .pubkeyType)) := by
  let : Crypto := digitCrypto
  refine ⟨⟨by decide,pushesTo_flatMap fun item hitem => ?_,by decide,?_⟩,?_,?_,?_⟩
  · rcases List.mem_cons.mp hitem with rfl | hitem
    · decide
    · rw [List.eq_of_mem_replicate hitem]
      decide
  · have hleft : evalScriptLeft []
        ((shortSig 1 :: List.replicate 10000 []).flatMap pushData) SCRIPT_VERIFY_STRICTENC {} =
          [] := by
      refine if_pos ?_
      rw [List.flatMap_cons,List.length_append,length_zeros]
      decide
    unfold combineSignatures
    rw [hleft]
    decide
  · change verifyScript _ _ _ _ = _
    decide
  · decide
  · decide

end
end Sidechain
