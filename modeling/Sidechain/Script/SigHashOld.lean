import Sidechain.Script.FindAndDelete
import Sidechain.Script.Parse

/-! The hash that is signed, and how it was computed before: the transaction is copied and modified
there, and serialized afterwards. -/
namespace Sidechain

/-- The sequence numbers of the other inputs may be updated at will. -/
def freeSequences (nIn : ℕ) (vin : List CTxIn) : List CTxIn :=
  vin.mapIdx fun i txin => if i ≠ nIn then { txin with nSequence := 0 } else txin

/-- The copy that `SignatureHashOld` serializes; there is none where it returns one. -/
def signatureHashOldTx (scriptCode : CScript) (txTo : CTransaction) (nIn : ℕ) (nHashType : UInt32) :
    Option CTransaction :=
  if nIn ≥ txTo.vin.length then none
  else
    let scriptCode := scriptCode.findAndDelete [OP_CODESEPARATOR]
    let vin := txTo.vin.map fun txin => { txin with scriptSig := [] }
    let txTmp := { txTo with vin := vin.modify nIn fun txin => { txin with scriptSig := scriptCode } }
    let txTmp :=
      if nHashType &&& 0x1f = SIGHASH_NONE.toUInt32 then
        some { txTmp with vin := freeSequences nIn txTmp.vin, vout := [] }
      else if nHashType &&& 0x1f = SIGHASH_SINGLE.toUInt32 then
        if nIn ≥ txTmp.vout.length then none
        else some { txTmp with
          vin := freeSequences nIn txTmp.vin
          vout := (txTmp.vout.take (nIn + 1)).mapIdx fun i out => if i < nIn then .null else out }
      else some txTmp
    if nHashType &&& SIGHASH_ANYONECANPAY.toUInt32 ≠ 0 then
      txTmp.map fun txTmp => { txTmp with vin := (txTmp.vin.drop nIn).take 1 }
    else txTmp

/-- What `SignatureHashOld` hashes. -/
def signatureHashOldData (scriptCode : CScript) (txTo : CTransaction) (nIn : ℕ)
    (nHashType : UInt32) : Option Bytes :=
  (signatureHashOldTx scriptCode txTo nIn nHashType).map fun txTmp =>
    txTmp.serialize ++ serializeBits 4 nHashType.toBitVec

/-- What `SignatureHash` hashes. -/
def signatureHashData (scriptCode : CScript) (txTo : CTransaction) (nIn : ℕ) (nHashType : UInt32) :
    Option Bytes :=
  if nIn ≥ txTo.vin.length then none
  else if nHashType &&& 0x1f = SIGHASH_SINGLE.toUInt32 ∧ nIn ≥ txTo.vout.length then none
  else
    some ((CTransactionSignatureSerializer.of txTo scriptCode nIn nHashType).serialize ++
      serializeBits 4 nHashType.toBitVec)

/-- A hash of the data, or one if there is none. -/
def hashOrOne [Crypto] : Option Bytes → Uint256
  | none => 1
  | some data => Crypto.hash256 data

def signatureHashOld [Crypto] (scriptCode : CScript) (txTo : CTransaction) (nIn : ℕ)
    (nHashType : UInt32) : Uint256 :=
  hashOrOne (signatureHashOldData scriptCode txTo nIn nHashType)

theorem signatureHash_eq [Crypto] (scriptCode : CScript) (txTo : CTransaction) (nIn : ℕ)
    (nHashType : UInt32) : signatureHash scriptCode txTo nIn nHashType =
      hashOrOne (signatureHashData scriptCode txTo nIn nHashType) := by
  unfold signatureHash signatureHashData
  split_ifs <;> rfl

theorem opChunks_of_parse {fuel : ℕ} {pc : CScript} {ops : List ScriptOp} (hfuel : pc.length ≤ fuel)
    (h : parseFrom fuel pc = some ops) : (CScript.opChunks pc).2 = [] := by
  induction fuel generalizing pc ops with
  | zero =>
    obtain rfl := List.length_eq_zero_iff.mp (Nat.le_zero.mp hfuel)
    rfl
  | succ fuel ih =>
    unfold parseFrom at h
    split_ifs at h with hpc
    · rw [List.isEmpty_iff.mp hpc]
      rfl
    · cases hop : getOp pc with
      | none =>
        rw [hop] at h
        cases h
      | some op =>
        rw [hop] at h
        obtain ⟨more,hmore,_⟩ := Option.map_eq_some_iff.mp h
        have hshort := getOp_shorter hop
        rw [opChunks_some hop]
        exact ih (by omega) hmore

theorem getOp_codeSeparator (rest : CScript) :
    getOp ([OP_CODESEPARATOR] ++ rest) = some ⟨OP_CODESEPARATOR,[],rest⟩ :=
  getOp_plain (Or.inr (by decide)) rest

theorem codeSeparator_iff {pc : CScript} {op : ScriptOp} (h : getOp pc = some op) :
    op.opcode = OP_CODESEPARATOR ↔ opEncoding (op.opcode,op.vch) = [OP_CODESEPARATOR] := by
  constructor
  · intro hop
    have hread := getOp_opEncoding h []
    have hcode := getOp_codeSeparator (leBytes (sizeWidth op.opcode) op.vch.length ++ op.vch)
    unfold opEncoding at hread ⊢
    rw [hop,List.append_nil] at hread
    rw [hop,List.singleton_append] at hcode
    dsimp only at hread
    rw [hcode] at hread
    obtain ⟨_,_,hrest⟩ := ScriptOp.mk.inj (Option.some.inj hread)
    rw [hop]
    dsimp only
    rw [hrest]
  · intro henc
    exact (List.cons.inj henc).1

theorem codeSeparators_eq {fuel : ℕ} {pc : CScript} (hfuel : pc.length ≤ fuel) :
    codeSeparators fuel pc = (CScript.opChunks pc).1.count [OP_CODESEPARATOR] := by
  induction fuel generalizing pc with
  | zero =>
    obtain rfl := List.length_eq_zero_iff.mp (Nat.le_zero.mp hfuel)
    rfl
  | succ fuel ih =>
    unfold codeSeparators
    cases hop : getOp pc with
    | none =>
      rw [opChunks_none hop]
      rfl
    | some op =>
      have hshort := getOp_shorter hop
      have hiff := codeSeparator_iff hop
      dsimp only
      rw [ih (by omega),opChunks_some hop,List.count_cons]
      by_cases hcode : op.opcode = OP_CODESEPARATOR
      · rw [if_pos hcode,if_pos (by simpa using hiff.mp hcode),Nat.add_comm]
      · rw [if_neg hcode,if_neg (by simpa using mt hiff.mpr hcode),Nat.zero_add,Nat.add_zero]

/-- If every operation can be read, all but the separators are written. -/
theorem scriptCodeBytes_eq {fuel : ℕ} {pc : CScript} (hfuel : pc.length < fuel)
    (hread : (CScript.opChunks pc).2 = []) :
    scriptCodeBytes fuel pc = ((CScript.opChunks pc).1.filter (· ≠ [OP_CODESEPARATOR])).flatten := by
  induction fuel generalizing pc with
  | zero => omega
  | succ fuel ih =>
    unfold scriptCodeBytes
    cases hop : getOp pc with
    | none =>
      rw [opChunks_none hop] at hread ⊢
      dsimp only at hread ⊢
      rw [hread]
      rfl
    | some op =>
      have hshort := getOp_shorter hop
      have hiff := codeSeparator_iff hop
      have hbytes := getOp_encoding hop
      have htake : pc.take (pc.length - op.pc.length) = opEncoding (op.opcode,op.vch) := by
        rw [hbytes,List.length_append,Nat.add_sub_cancel,List.take_left]
      rw [opChunks_some hop] at hread ⊢
      dsimp only at hread ⊢
      rw [ih (by omega) hread,htake]
      by_cases hcode : op.opcode = OP_CODESEPARATOR
      · rw [if_pos hcode,List.nil_append,List.filter_cons_of_neg (by simpa using hiff.mp hcode)]
      · rw [if_neg hcode,List.filter_cons_of_pos (by simpa using mt hiff.mpr hcode),
          List.flatten_cons]

theorem length_filter_flatten (b : Bytes) (chunks : List Bytes) :
    (chunks.filter (· ≠ b)).flatten.length + chunks.count b * b.length = chunks.flatten.length := by
  induction chunks with
  | nil => simp
  | cons chunk chunks ih =>
    rw [List.count_cons,List.flatten_cons,List.length_append,← ih]
    by_cases heq : chunk = b
    · subst heq
      rw [List.filter_cons_of_neg (by simp),if_pos (by simp),Nat.add_mul,Nat.one_mul]
      omega
    · rw [List.filter_cons_of_pos (by simpa using heq),if_neg (by simpa using heq),
        List.flatten_cons,List.length_append,Nat.add_zero]
      omega

theorem serializeScriptCode_eq {scriptCode : CScript} (h : scriptCode.parse ≠ none) :
    serializeScriptCode scriptCode =
      serializeBlob (scriptCode.findAndDelete [OP_CODESEPARATOR]) := by
  obtain ⟨ops,hops⟩ := Option.ne_none_iff_exists'.mp h
  have htail := opChunks_of_parse le_rfl hops
  obtain ⟨hflat,_⟩ := opChunks_spec scriptCode
  have hdelete : scriptCode.findAndDelete [OP_CODESEPARATOR] =
      (scriptCode.opChunks.1.filter (· ≠ [OP_CODESEPARATOR])).flatten := by
    have hspec := findAndDeleteFoundFrom_spec getOp_codeSeparator
      (Nat.lt_succ_self scriptCode.length)
    rw [← findAndDeleteFound_fst,CScript.findAndDeleteFound,if_neg (by simp),hspec,htail,
      List.append_nil]
  have hlength := length_filter_flatten [OP_CODESEPARATOR] scriptCode.opChunks.1
  have hall := congrArg List.length hflat
  rw [htail,List.append_nil] at hall
  rw [List.length_singleton,Nat.mul_one,← hall] at hlength
  unfold serializeScriptCode serializeBlob
  rw [codeSeparators_eq le_rfl,scriptCodeBytes_eq (Nat.lt_succ_self _) htail,hdelete]
  congr 2
  exact Nat.sub_eq_of_eq_add hlength.symm

/-- A loop over the positions of a list writes what the elements are written as. -/
theorem flatMap_range {α : Type} (l : List α) (g : ℕ → Bytes) (f : α → Bytes) (n : ℕ)
    (hlen : l.length = n) (h : ∀ i (hi : i < l.length), g i = f l[i]) :
    (List.range n).flatMap g = l.flatMap f := by
  rw [List.flatMap_def,List.flatMap_def]
  congr 1
  refine List.ext_getElem (by simp [hlen]) fun i h1 h2 => ?_
  rw [List.length_map] at h2
  rw [List.getElem_map,List.getElem_map,List.getElem_range]
  exact h i h2

section
variable (txTo : CTransaction) (scriptCode : CScript) (nIn : ℕ) (nHashType : UInt32)

/-- The inputs of the copy before those of others are left out. -/
def oldInputs : List CTxIn :=
  let vin := (txTo.vin.map fun txin => { txin with scriptSig := [] }).modify nIn
    fun txin => { txin with scriptSig := scriptCode.findAndDelete [OP_CODESEPARATOR] }
  if nHashType &&& 0x1f = SIGHASH_NONE.toUInt32 ∨ nHashType &&& 0x1f = SIGHASH_SINGLE.toUInt32 then
    freeSequences nIn vin
  else vin

def oldOutputs : List CTxOut :=
  if nHashType &&& 0x1f = SIGHASH_NONE.toUInt32 then []
  else if nHashType &&& 0x1f = SIGHASH_SINGLE.toUInt32 then
    (txTo.vout.take (nIn + 1)).mapIdx fun i out => if i < nIn then .null else out
  else txTo.vout

@[simp] theorem oldInputs_length : (oldInputs txTo scriptCode nIn nHashType).length = txTo.vin.length := by
  unfold oldInputs freeSequences
  dsimp only
  split_ifs <;> simp

theorem oldInputs_get {i : ℕ} (hi : i < txTo.vin.length) :
    (oldInputs txTo scriptCode nIn nHashType)[i]? = some
      { txTo.vin[i] with
        scriptSig := if i = nIn then scriptCode.findAndDelete [OP_CODESEPARATOR] else []
        nSequence := if i ≠ nIn ∧ (nHashType &&& 0x1f = SIGHASH_NONE.toUInt32 ∨
          nHashType &&& 0x1f = SIGHASH_SINGLE.toUInt32) then 0 else txTo.vin[i].nSequence } := by
  have hvin : ((txTo.vin.map fun txin => { txin with scriptSig := [] }).modify nIn fun txin =>
      { txin with scriptSig := scriptCode.findAndDelete [OP_CODESEPARATOR] })[i]? = some
        { txTo.vin[i] with
          scriptSig := if i = nIn then scriptCode.findAndDelete [OP_CODESEPARATOR] else [] } := by
    rw [List.getElem?_modify,List.getElem?_map,List.getElem?_eq_getElem hi]
    by_cases hsame : nIn = i
    · simp [hsame]
    · simp [hsame,Ne.symm hsame]
  unfold oldInputs freeSequences
  dsimp only
  by_cases hfree : nHashType &&& 0x1f = SIGHASH_NONE.toUInt32 ∨
      nHashType &&& 0x1f = SIGHASH_SINGLE.toUInt32
  · rw [if_pos hfree,List.getElem?_mapIdx,hvin,Option.map_some]
    by_cases hsame : i = nIn
    · simp [hsame]
    · simp [hsame,hfree]
  · have hseq : ¬(i ≠ nIn ∧ (nHashType &&& 0x1f = SIGHASH_NONE.toUInt32 ∨
        nHashType &&& 0x1f = SIGHASH_SINGLE.toUInt32)) := fun h => hfree h.2
    rw [if_neg hfree,hvin,if_neg hseq]

theorem serializeInput_eq (hparse : scriptCode.parse ≠ none) {i nInput : ℕ}
    (hnInput : (if nHashType &&& SIGHASH_ANYONECANPAY.toUInt32 != 0 then nIn else nInput) = i)
    (hi : i < txTo.vin.length) (hlen : i < (oldInputs txTo scriptCode nIn nHashType).length) :
    (CTransactionSignatureSerializer.of txTo scriptCode nIn nHashType).serializeInput nInput =
      (oldInputs txTo scriptCode nIn nHashType)[i].serialize := by
  have hget := oldInputs_get txTo scriptCode nIn nHashType hi
  rw [List.getElem?_eq_getElem hlen,Option.some.injEq] at hget
  rw [hget]
  unfold CTransactionSignatureSerializer.serializeInput CTransactionSignatureSerializer.of
    CTxIn.serialize
  dsimp only
  rw [hnInput,List.getElem?_eq_getElem hi]
  dsimp only
  by_cases hsame : i = nIn
  · rw [if_neg (not_not.mpr hsame),if_pos hsame,if_neg (fun h => h.1 hsame),
      if_neg (fun h => h.1 hsame),serializeScriptCode_eq hparse]
  · rw [if_pos hsame,if_neg hsame]
    by_cases hfree : nHashType &&& 0x1f = SIGHASH_NONE.toUInt32 ∨
        nHashType &&& 0x1f = SIGHASH_SINGLE.toUInt32
    · rw [if_pos ⟨hsame,by simpa [or_comm] using hfree⟩,if_pos ⟨hsame,hfree⟩]
      rfl
    · rw [if_neg (fun h => hfree (by simpa [or_comm] using h.2)),if_neg (fun h => hfree h.2)]

theorem oldOutputs_get {i : ℕ} (hi : i < (oldOutputs txTo nIn nHashType).length) :
    (oldOutputs txTo nIn nHashType)[i]? =
      if nHashType &&& 0x1f = SIGHASH_SINGLE.toUInt32 ∧ i ≠ nIn then some .null
      else txTo.vout[i]? := by
  unfold oldOutputs at hi ⊢
  by_cases hnone : nHashType &&& 0x1f = SIGHASH_NONE.toUInt32
  · rw [if_pos hnone] at hi
    exact absurd hi (Nat.not_lt_zero i)
  · rw [if_neg hnone] at hi ⊢
    by_cases hone : nHashType &&& 0x1f = SIGHASH_SINGLE.toUInt32
    · rw [if_pos hone] at hi ⊢
      rw [List.length_mapIdx,List.length_take] at hi
      have hle : i < nIn + 1 := by omega
      obtain ⟨out,hget⟩ : ∃ out, txTo.vout[i]? = some out :=
        ⟨_,List.getElem?_eq_getElem (by omega)⟩
      rw [List.getElem?_mapIdx,List.getElem?_take_of_lt hle,hget,Option.map_some]
      by_cases hsame : i = nIn
      · rw [if_neg (by omega),if_neg fun h => h.2 hsame]
      · rw [if_pos (by omega),if_pos ⟨hone,hsame⟩]
    · rw [if_neg hone,if_neg fun h => hone h.1]

theorem serializeOutputs_eq (hsingle : nHashType &&& 0x1f = SIGHASH_SINGLE.toUInt32 →
      nIn < txTo.vout.length) :
    let s := CTransactionSignatureSerializer.of txTo scriptCode nIn nHashType
    let nOutputs := if s.fHashNone then 0 else if s.fHashSingle then s.nIn + 1
      else s.txTo.vout.length
    writeCompactSize nOutputs ++ (List.range nOutputs).flatMap s.serializeOutput =
      serializeVector CTxOut.serialize (oldOutputs txTo nIn nHashType) := by
  intro s nOutputs
  have hlen : (oldOutputs txTo nIn nHashType).length = nOutputs := by
    unfold oldOutputs nOutputs s CTransactionSignatureSerializer.of
    by_cases hnone : nHashType &&& 0x1f = SIGHASH_NONE.toUInt32
    · simp [hnone]
    · by_cases hone : nHashType &&& 0x1f = SIGHASH_SINGLE.toUInt32
      · have hn := hsingle hone
        have hdiff : SIGHASH_SINGLE.toUInt32 ≠ SIGHASH_NONE.toUInt32 := by decide
        simp only [hone,hdiff,if_false,if_true,List.length_mapIdx,List.length_take]
        simp [hdiff]
        omega
      · simp [hnone,hone]
  unfold serializeVector
  rw [hlen]
  congr 1
  refine flatMap_range _ _ _ _ hlen fun i hi => ?_
  have hget := oldOutputs_get txTo nIn nHashType hi
  rw [List.getElem?_eq_getElem hi] at hget
  unfold s CTransactionSignatureSerializer.serializeOutput CTransactionSignatureSerializer.of
  by_cases hblank : nHashType &&& 0x1f = SIGHASH_SINGLE.toUInt32 ∧ i ≠ nIn
  · rw [if_pos hblank,Option.some.injEq] at hget
    rw [if_pos ⟨beq_iff_eq.mpr hblank.1,hblank.2⟩,hget]
  · rw [if_neg hblank] at hget
    rw [if_neg fun h => hblank ⟨beq_iff_eq.mp h.1,h.2⟩,← hget]

theorem serializeInputs_eq (hparse : scriptCode.parse ≠ none) (hnIn : nIn < txTo.vin.length) :
    let s := CTransactionSignatureSerializer.of txTo scriptCode nIn nHashType
    let nInputs := if s.fAnyoneCanPay then 1 else s.txTo.vin.length
    let vin := oldInputs txTo scriptCode nIn nHashType
    writeCompactSize nInputs ++ (List.range nInputs).flatMap s.serializeInput =
      serializeVector CTxIn.serialize
        (if nHashType &&& SIGHASH_ANYONECANPAY.toUInt32 ≠ 0 then (vin.drop nIn).take 1 else vin) := by
  intro s nInputs vin
  have hvin : vin.length = txTo.vin.length := oldInputs_length txTo scriptCode nIn nHashType
  by_cases hany : nHashType &&& SIGHASH_ANYONECANPAY.toUInt32 = 0
  · have hone : (nHashType &&& SIGHASH_ANYONECANPAY.toUInt32 != 0) = false := by simp [hany]
    have hcount : nInputs = txTo.vin.length := if_neg (by simp [s,hone,CTransactionSignatureSerializer.of])
    rw [if_neg (not_not.mpr hany)]
    unfold serializeVector
    rw [hcount,hvin]
    congr 1
    refine flatMap_range _ _ _ _ hvin fun i hi => ?_
    exact serializeInput_eq txTo scriptCode nIn nHashType hparse (by rw [hone]; rfl) (hvin ▸ hi) hi
  · have hone : (nHashType &&& SIGHASH_ANYONECANPAY.toUInt32 != 0) = true := by simp [hany]
    have hcount : nInputs = 1 := if_pos hone
    have hget : nIn < vin.length := by rw [hvin]; exact hnIn
    have hinput := @serializeInput_eq txTo scriptCode nIn nHashType hparse nIn 0
      (by rw [hone]; rfl) hnIn hget
    have htake : (vin.drop nIn).take 1 = [vin[nIn]] := by
      rw [List.drop_eq_getElem_cons hget]
      rfl
    rw [if_pos hany,hcount,htake]
    unfold serializeVector
    rw [List.flatMap_singleton,← hinput]
    exact congrArg (writeCompactSize 1 ++ ·) (List.append_nil _)

theorem signatureHashOldTx_eq (hnIn : nIn < txTo.vin.length) :
    signatureHashOldTx scriptCode txTo nIn nHashType =
      if nHashType &&& 0x1f = SIGHASH_SINGLE.toUInt32 ∧ nIn ≥ txTo.vout.length then none
      else
        let vin := oldInputs txTo scriptCode nIn nHashType
        some { txTo with
          vin := if nHashType &&& SIGHASH_ANYONECANPAY.toUInt32 ≠ 0 then (vin.drop nIn).take 1
            else vin
          vout := oldOutputs txTo nIn nHashType } := by
  have hdiff : SIGHASH_NONE.toUInt32 ≠ SIGHASH_SINGLE.toUInt32 := by decide
  unfold signatureHashOldTx oldInputs oldOutputs
  rw [if_neg (Nat.not_le.mpr hnIn)]
  by_cases hnone : nHashType &&& 0x1f = SIGHASH_NONE.toUInt32
  · have hone : ¬nHashType &&& 0x1f = SIGHASH_SINGLE.toUInt32 := fun h => hdiff (hnone.symm.trans h)
    have hout : ¬(nHashType &&& 0x1f = SIGHASH_SINGLE.toUInt32 ∧ nIn ≥ txTo.vout.length) :=
      fun h => hone h.1
    rw [if_neg hout]
    simp only [if_pos hnone,if_pos (Or.inl hnone)]
    split_ifs <;> rfl
  · by_cases hone : nHashType &&& 0x1f = SIGHASH_SINGLE.toUInt32
    · simp only [if_neg hnone,if_pos hone,if_pos (Or.inr hone)]
      by_cases hout : nIn ≥ txTo.vout.length
      · simp only [if_pos hout,if_pos (And.intro hone hout)]
        split_ifs <;> rfl
      · have hin : ¬(nHashType &&& 0x1f = SIGHASH_SINGLE.toUInt32 ∧ nIn ≥ txTo.vout.length) :=
          fun h => hout h.2
        rw [if_neg hin]
        simp only [if_neg hout]
        split_ifs <;> rfl
    · have hout : ¬(nHashType &&& 0x1f = SIGHASH_SINGLE.toUInt32 ∧ nIn ≥ txTo.vout.length) :=
        fun h => hone h.1
      rw [if_neg hout]
      simp only [if_neg hnone,if_neg hone,if_neg (not_or.mpr ⟨hnone,hone⟩)]
      split_ifs <;> rfl

end

theorem signatureHashData_old (scriptCode : CScript) (txTo : CTransaction) (nIn : ℕ)
    (nHashType : UInt32) (hnIn : nIn < txTo.vin.length) (hparse : scriptCode.parse ≠ none) :
    signatureHashData scriptCode txTo nIn nHashType =
      signatureHashOldData scriptCode txTo nIn nHashType := by
  unfold signatureHashData signatureHashOldData
  rw [signatureHashOldTx_eq _ _ _ _ hnIn,if_neg (by omega)]
  by_cases hout : nHashType &&& 0x1f = SIGHASH_SINGLE.toUInt32 ∧ nIn ≥ txTo.vout.length
  · rw [if_pos hout,if_pos hout]
    rfl
  · have hsingle : nHashType &&& 0x1f = SIGHASH_SINGLE.toUInt32 → nIn < txTo.vout.length :=
      fun h => Nat.lt_of_not_le fun hle => hout ⟨h,hle⟩
    rw [if_neg hout,if_neg hout,Option.map_some]
    unfold CTransactionSignatureSerializer.serialize CTransaction.serialize
    have hin := serializeInputs_eq txTo scriptCode nIn nHashType hparse hnIn
    have hout := serializeOutputs_eq txTo scriptCode nIn nHashType hsingle
    dsimp only at hin hout ⊢
    rw [← hin,← hout]
    simp only [List.append_assoc]
    rfl

/-- The two algorithms hash the same bytes, and return one where neither has bytes to hash. -/
theorem signatureHash_old [Crypto] (scriptCode : CScript) (txTo : CTransaction) (nIn : ℕ)
    (nHashType : UInt32) (hnIn : nIn < txTo.vin.length) (hparse : scriptCode.parse ≠ none) :
    signatureHashData scriptCode txTo nIn nHashType =
        signatureHashOldData scriptCode txTo nIn nHashType ∧
      signatureHash scriptCode txTo nIn nHashType =
        hashOrOne (signatureHashData scriptCode txTo nIn nHashType) ∧
      signatureHashOld scriptCode txTo nIn nHashType =
        hashOrOne (signatureHashOldData scriptCode txTo nIn nHashType) :=
  ⟨signatureHashData_old scriptCode txTo nIn nHashType hnIn hparse,
    signatureHash_eq scriptCode txTo nIn nHashType,rfl⟩

theorem signatureHash_old_single :
    let txTo : CTransaction := { vin := [{ prevout := ⟨1,0⟩ },{ prevout := ⟨2,0⟩ }], vout := [.null] }
    signatureHashData [OP_CODESEPARATOR,OP_DUP] txTo 0 3 =
        signatureHashOldData [OP_CODESEPARATOR,OP_DUP] txTo 0 3 ∧
      (letI : Crypto := digitCrypto
       signatureHash [OP_CODESEPARATOR,OP_DUP] txTo 0 3 =
        signatureHashOld [OP_CODESEPARATOR,OP_DUP] txTo 0 3) := by
  intro txTo
  let : Crypto := digitCrypto
  obtain ⟨hdata,hhash,hold⟩ :=
    signatureHash_old [OP_CODESEPARATOR,OP_DUP] txTo 0 3 (by decide) (by decide)
  exact ⟨hdata,hhash.trans ((congrArg hashOrOne hdata).trans hold.symm)⟩

end Sidechain
