import Sidechain.Script.SigOpBound
import Sidechain.Validation.DisconnectBlock
import Sidechain.Validation.ScriptFlags

/-! The signature checks of a block against the operations `ConnectBlock` counts: input scripts and
redeem scripts are counted where they are run, output scripts where they are created and not where
they are spent. -/
namespace Sidechain
open Run Costed

section
variable [Crypto]

def CScriptCheck.counted (check : CScriptCheck) : Costed Halt (Except ScriptError Unit) :=
  match check.ptxTo.vin[check.nIn]? with
  | none => lift (.error (.undefined "ptxTo->vin[nIn]"))
  | some txin =>
    verifyScriptCounted txin.scriptSig check.scriptPubKey check.nFlags
      (transactionSignatureChecker check.ptxTo check.nIn txin)

/-- The scripts of a transaction that are verified, whether at once or through the queue. -/
def txScriptChecks (node : Node) (block : CBlockHeader) (pindex : CBlockIndex)
    (view : CCoinsViewCache) (tx : CTransaction) : Outcome (List CScriptCheck) :=
  if tx.isCoinBase || isCheckpointed node pindex then .ok []
  else (List.range tx.vin.length).mapM
    (scriptCheckFor tx view (blockScriptFlags node block pindex))

/-- The scripts of transactions connected one after another. -/
def blockScriptChecks (node : Node) (block : CBlockHeader) (pindex : CBlockIndex) :
    ConnectState → List CTransaction → Outcome (List CScriptCheck)
  | _,[] => .ok []
  | s,tx::vtx => do
    let checks ← txScriptChecks node block pindex s.view tx
    let s ← connectTx node block pindex s tx
    let rest ← blockScriptChecks node block pindex s vtx
    pure (checks ++ rest)

/-- The calls of `CheckSig` that verifying scripts makes. -/
def sigCalls (checks : List CScriptCheck) : ℕ := (checks.map fun check => check.counted.calls).sum

/-- The operations of the output scripts that are spent. -/
def spentSigOps (checks : List CScriptCheck) : ℕ :=
  (checks.map fun check => check.scriptPubKey.getSigOpCount true).sum

end

/-- The check of an input with the coins it spends. -/
structure ChecksInput (view : CCoinsViewCache) (flags : ScriptFlags) (txin : CTxIn)
    (check : CScriptCheck) : Prop where
  input : check.ptxTo.vin[check.nIn]? = some txin
  nFlags : check.nFlags = flags
  spends : ∃ coins out, view.accessCoins txin.prevout.hash = some coins ∧
    coins.vout[txin.prevout.n.toNat]? = some out ∧ check.scriptPubKey = out.scriptPubKey

theorem scriptCheckFor_ok {tx : CTransaction} {view : CCoinsViewCache} {flags : ScriptFlags} {i : ℕ}
    {txin : CTxIn} (hin : tx.vin[i]? = some txin) {check : CScriptCheck}
    (h : scriptCheckFor tx view flags i = .ok check) : ChecksInput view flags txin check := by
  unfold scriptCheckFor at h
  rw [hin] at h
  simp only at h
  split at h
  · cases h
  · rename_i coins hcoins
    split at h
    · cases h
    · rename_i out hout
      cases h
      exact ⟨hin,rfl,coins,out,hcoins,hout,rfl⟩

theorem mapM_range_forall₂ {α β ε : Type} {R : α → β → Prop} {as : List α} {f : ℕ → Except ε β}
    {bs : List β} (hR : ∀ i a b, as[i]? = some a → f i = .ok b → R a b)
    (h : (List.range as.length).mapM f = .ok bs) : List.Forall₂ R as bs := by
  induction as generalizing f bs with
  | nil =>
    cases h
    exact .nil
  | cons a as ih =>
    rw [List.length_cons,List.range_succ_eq_map,List.mapM_cons,List.mapM_map] at h
    obtain ⟨b,hb,h⟩ := bind_ok.mp h
    obtain ⟨rest,hrest,h⟩ := bind_ok.mp h
    cases h
    exact .cons (hR 0 a b rfl hb) (ih (fun i a' b' ha' hb' => hR (i + 1) a' b' ha' hb') hrest)

section
variable [Crypto] {view : CCoinsViewCache} {flags : ScriptFlags}

theorem ChecksInput.calls_le {txin : CTxIn} {check : CScriptCheck}
    (h : ChecksInput view flags txin check) :
    check.counted.calls ≤ countedSigOps txin.scriptSig check.scriptPubKey flags := by
  unfold CScriptCheck.counted
  rw [h.input]
  exact h.nFlags ▸ verifyScriptCounted_calls _ _

omit [Crypto] in
theorem ChecksInput.output_eq {txin : CTxIn} {check : CScriptCheck}
    (h : ChecksInput view flags txin check) {prevout : CTxOut}
    (hout : view.getOutputFor txin = .ok prevout) : check.scriptPubKey = prevout.scriptPubKey := by
  obtain ⟨coins,out,hcoins,hfound,hscript⟩ := h.spends
  unfold CCoinsViewCache.getOutputFor at hout
  rw [hcoins] at hout
  simp only [hfound] at hout
  split_ifs at hout
  cases hout
  exact hscript

theorem sigCalls_le_of_off {vin : List CTxIn} {checks : List CScriptCheck}
    (h : List.Forall₂ (ChecksInput view flags) vin checks)
    (hoff : hasFlag flags SCRIPT_VERIFY_P2SH = false) : sigCalls checks ≤
      (vin.map fun txin => txin.scriptSig.getSigOpCount true).sum + spentSigOps checks := by
  induction h with
  | nil => exact Nat.le_refl 0
  | cons hfirst hrest ih =>
    have hcalls := hfirst.calls_le
    unfold countedSigOps at hcalls
    rw [hoff,Bool.false_and,if_neg Bool.false_ne_true] at hcalls
    simp only [sigCalls,spentSigOps,List.map_cons,List.sum_cons] at ih ⊢
    omega

/-- With them, what `GetP2SHSigOpCount` has added is counted too. -/
theorem sigCalls_le_of_p2sh {vin : List CTxIn} {checks : List CScriptCheck}
    (h : List.Forall₂ (ChecksInput view flags) vin checks) {n n' : ℕ}
    (hcount : vin.foldlM (fun nSigOps txin => do
      let prevout ← view.getOutputFor txin
      if prevout.scriptPubKey.isPayToScriptHash then
        pure (nSigOps + prevout.scriptPubKey.getP2SHSigOpCount txin.scriptSig)
      else pure nSigOps) n = (.ok n' : Outcome ℕ)) : sigCalls checks + n ≤
      (vin.map fun txin => txin.scriptSig.getSigOpCount true).sum + spentSigOps checks + n' := by
  induction h generalizing n with
  | nil =>
    obtain rfl := foldlM_nil_ok.mp hcount
    exact Nat.le_refl _
  | cons hfirst hrest ih =>
    obtain ⟨m,hm,hcount⟩ := foldlM_cons_ok.mp hcount
    have hrest := ih hcount
    obtain ⟨prevout,hprevout,hm⟩ := bind_ok.mp hm
    have hcalls := hfirst.calls_le
    unfold countedSigOps at hcalls
    rw [hfirst.output_eq hprevout] at hcalls
    simp only [sigCalls,spentSigOps,List.map_cons,List.sum_cons] at hrest ⊢
    rw [hfirst.output_eq hprevout]
    split_ifs at hm with hp2sh
    · obtain rfl := pure_ok.mp hm
      split_ifs at hcalls <;> omega
    · obtain rfl := pure_ok.mp hm
      rw [if_neg (by simp [hp2sh])] at hcalls
      omega

omit [Crypto] in
theorem blockScriptFlags_p2sh (node : Node) (block : CBlockHeader) (pindex : CBlockIndex) :
    hasFlag (blockScriptFlags node block pindex) SCRIPT_VERIFY_P2SH =
      strictPayToScriptHash pindex := by
  unfold blockScriptFlags
  simp only
  by_cases hstrict : strictPayToScriptHash pindex = true
  · rw [hstrict,if_pos rfl]
    split_ifs <;> decide
  · rw [Bool.not_eq_true] at hstrict
    rw [hstrict,if_neg Bool.false_ne_true]
    split_ifs <;> decide

variable {node : Node} {block : CBlockHeader} {pindex : CBlockIndex}

theorem checkInputs_checks {mapBlockIndex : Uint256 → Option ℕ} {tx : CTransaction}
    {vChecks : List CScriptCheck} (hcb : tx.isCoinBase = false)
    (h : checkInputs mapBlockIndex tx view (!isCheckpointed node pindex)
      (blockScriptFlags node block pindex) (node.nScriptCheckThreads != 0) = .ok vChecks) :
    ∃ checks, txScriptChecks node block pindex view tx = .ok checks ∧
      ∀ check ∈ checks, check ∈ vChecks ∨ check.run = .ok (.ok ()) := by
  unfold checkInputs at h
  unfold txScriptChecks
  rw [if_neg (by simp [hcb])] at h
  obtain ⟨_,_,h⟩ := bind_ok.mp h
  obtain ⟨_,_,h⟩ := bind_ok.mp h
  rw [hcb,Bool.false_or]
  cases hskip : isCheckpointed node pindex with
  | true => exact ⟨[],rfl,by simp⟩
  | false =>
    rw [hskip,if_neg (by simp)] at h
    rw [if_neg Bool.false_ne_true]
    split_ifs at h
    · exact ⟨vChecks,h,fun check hcheck => .inl hcheck⟩
    · obtain ⟨_,hall,_⟩ := map_ok.mp h
      obtain ⟨checks,hchecks,hpass⟩ := mapM_ok_of_forall fun i hi =>
        checkInline_ok.mp (forM_ok.mp hall i hi)
      exact ⟨checks,hchecks,fun check hcheck => .inr (hpass check hcheck)⟩

theorem getP2SHSigOpCount_calls {tx : CTransaction} {checks : List CScriptCheck} {n n' : ℕ}
    (hcb : tx.isCoinBase = false) (hchecks : List.Forall₂
      (ChecksInput view (blockScriptFlags node block pindex)) tx.vin checks)
    (h : addP2SHSigOps pindex tx view n = .ok n') : sigCalls checks + n ≤
      (tx.vin.map fun txin => txin.scriptSig.getSigOpCount true).sum + spentSigOps checks + n' := by
  have hflag := blockScriptFlags_p2sh node block pindex
  unfold addP2SHSigOps at h
  split_ifs at h with hstrict
  · cases h
    rw [Bool.not_eq_true'] at hstrict
    have hcalls := sigCalls_le_of_off hchecks (hflag.trans hstrict)
    omega
  · obtain ⟨nP2SHSigOps,hcount,h⟩ := bind_ok.mp h
    obtain ⟨_,_,h⟩ := bind_ok.mp h
    obtain rfl := pure_ok.mp h
    unfold getP2SHSigOpCount at hcount
    rw [if_neg (by simp [hcb])] at hcount
    have hcalls := sigCalls_le_of_p2sh hchecks hcount
    omega

/-- One transaction: its checks, and what they cost against what is counted. -/
structure TxChecked (node : Node) (block : CBlockHeader) (pindex : CBlockIndex) (tx : CTransaction)
    (s s' : ConnectState) (checks : List CScriptCheck) : Prop where
  found : txScriptChecks node block pindex s.view tx = .ok checks
  passed : ∀ check ∈ checks, check ∈ s'.vChecks ∨ check.run = .ok (.ok ())
  queued : s.vChecks ⊆ s'.vChecks
  calls : sigCalls checks + s.nSigOps ≤ spentSigOps checks + s'.nSigOps
  limit : s'.nSigOps ≤ MAX_BLOCK_SIGOPS

omit [Crypto] in
/-- Redeem scripts only add to the count, up to the limit. -/
theorem addP2SHSigOps_bounds {tx : CTransaction} {n n' : ℕ} (hn : n ≤ MAX_BLOCK_SIGOPS)
    (h : addP2SHSigOps pindex tx view n = .ok n') : n ≤ n' ∧ n' ≤ MAX_BLOCK_SIGOPS := by
  unfold addP2SHSigOps at h
  split_ifs at h with hstrict
  · cases h
    exact ⟨Nat.le_refl _,hn⟩
  · obtain ⟨nP2SHSigOps,_,h⟩ := bind_ok.mp h
    obtain ⟨_,hmax,h⟩ := bind_ok.mp h
    obtain rfl := pure_ok.mp h
    exact ⟨Nat.le_add_right _ _,Nat.not_lt.mp (require_dos_ok.mp hmax)⟩

omit [Crypto] in
theorem getLegacySigOpCount_ge (tx : CTransaction) :
    (tx.vin.map fun txin => txin.scriptSig.getSigOpCount true).sum ≤ getLegacySigOpCount tx :=
  (List.sum_le_sum fun txin _ => getSigOpCount_le txin.scriptSig).trans (Nat.le_add_right _ _)

theorem connectTx_checked {tx : CTransaction} {s s' : ConnectState}
    (h : connectTx node block pindex s tx = .ok s') :
    ∃ checks, TxChecked node block pindex tx s s' checks := by
  simp only [connectTx,bind_ok,require_dos_ok,pure_ok] at h
  obtain ⟨_,hlimit,s₁,hs₁,⟨v,txundo⟩,_,rfl⟩ := h
  have hlegacy := getLegacySigOpCount_ge tx
  rw [Nat.not_lt] at hlimit
  unfold connectInputs at hs₁
  by_cases hcb : tx.isCoinBase = true
  · rw [if_pos hcb] at hs₁
    cases hs₁
    refine ⟨[],by simp [txScriptChecks,hcb],by simp,fun _ h => h,?_,hlimit⟩
    simp [sigCalls,spentSigOps]
  · rw [if_neg hcb] at hs₁
    rw [Bool.not_eq_true] at hcb
    simp only [bind_ok,pure_ok] at hs₁
    obtain ⟨_,_,_,_,_,_,_,_,nSigOps,hp2sh,_,_,_,_,_,_,_,_,vChecks,hinputs,rfl⟩ := hs₁
    obtain ⟨checks,hchecks,hpassed⟩ := checkInputs_checks hcb hinputs
    obtain ⟨hmore,hmax⟩ := addP2SHSigOps_bounds hlimit hp2sh
    have hcalls : sigCalls checks + (s.nSigOps + getLegacySigOpCount tx) ≤
        (tx.vin.map fun txin => txin.scriptSig.getSigOpCount true).sum + spentSigOps checks +
          nSigOps := by
      unfold txScriptChecks at hchecks
      rw [hcb,Bool.false_or] at hchecks
      split_ifs at hchecks with hskip
      · cases hchecks
        simp only [sigCalls,spentSigOps,List.map_nil,List.sum_nil]
        omega
      · exact getP2SHSigOpCount_calls hcb (mapM_range_forall₂
          (fun i txin check hin hcheck => scriptCheckFor_ok hin hcheck) hchecks) hp2sh
    refine ⟨checks,hchecks,fun check hcheck => (hpassed check hcheck).imp_left
      fun hq => List.mem_append_right _ hq,fun check hcheck => List.mem_append_left _ hcheck,?_,
      hmax⟩
    simp only
    omega

theorem foldlM_connectTx_checked {vtx : List CTransaction} {s s' : ConnectState}
    (hlimit : s.nSigOps ≤ MAX_BLOCK_SIGOPS)
    (h : vtx.foldlM (connectTx node block pindex) s = .ok s') :
    ∃ checks, blockScriptChecks node block pindex s vtx = .ok checks ∧
      (∀ check ∈ checks, check ∈ s'.vChecks ∨ check.run = .ok (.ok ())) ∧
      s.vChecks ⊆ s'.vChecks ∧
      sigCalls checks + s.nSigOps ≤ spentSigOps checks + s'.nSigOps ∧
      s'.nSigOps ≤ MAX_BLOCK_SIGOPS := by
  induction vtx generalizing s with
  | nil =>
    obtain rfl := foldlM_nil_ok.mp h
    exact ⟨[],rfl,by simp,fun _ h => h,Nat.le_refl _,hlimit⟩
  | cons tx vtx ih =>
    obtain ⟨m,hm,hrest⟩ := foldlM_cons_ok.mp h
    obtain ⟨checks,htx⟩ := connectTx_checked hm
    obtain ⟨rest,hfound,hpassed,hqueued,hcalls,hmax⟩ := ih htx.limit hrest
    refine ⟨checks ++ rest,?_,fun check hcheck => ?_,fun check hcheck => hqueued (htx.queued hcheck),
      ?_,hmax⟩
    · unfold blockScriptChecks
      rw [htx.found,hm]
      exact bind_ok.mpr ⟨checks,rfl,bind_ok.mpr ⟨m,rfl,bind_ok.mpr ⟨rest,hfound,rfl⟩⟩⟩
    · rcases List.mem_append.mp hcheck with hcheck | hcheck
      · exact (htx.passed check hcheck).imp_left fun hq => hqueued hq
      · exact hpassed check hcheck
    · have := htx.calls
      simp only [sigCalls,spentSigOps,List.map_append,List.sum_append] at this hcalls ⊢
      omega

theorem connectTransactions_sigOps {b : CBlock} {pprev : CBlockIndex} {s : ConnectState}
    (h : connectTransactions node b pindex pprev view = .ok s) :
    ∃ checks, blockScriptChecks node b.toCBlockHeader pindex { view } b.vtx = .ok checks ∧
      (∀ check ∈ checks, check.run = .ok (.ok ())) ∧
      sigCalls checks ≤ s.nSigOps + spentSigOps checks ∧ s.nSigOps ≤ MAX_BLOCK_SIGOPS := by
  simp only [connectTransactions,bind_ok,pure_ok] at h
  obtain ⟨_,_,s',hrun,_,hwait,rfl⟩ := h
  obtain ⟨checks,hfound,hpassed,_,hcalls,hmax⟩ := foldlM_connectTx_checked (Nat.zero_le _) hrun
  refine ⟨checks,hfound,fun check hcheck => ?_,by simp only at hcalls; omega,hmax⟩
  rcases hpassed check hcheck with hqueued | hpass
  · obtain ⟨r,hr,hverdict⟩ := bind_ok.mp (forM_ok.mp hwait check hqueued)
    cases r with
    | ok u => exact hr
    | error e => cases hverdict
  · exact hpass

end

/-- Costed operations bound the calls of one verification, the accurate count is the smaller one,
and the calls of a block are bounded by what `ConnectBlock` counts together with the operations of
the output scripts the block spends. -/
theorem sigOps_bound_calls [Crypto] :
    (∀ scriptSig scriptPubKey flags checker,
      (verifyScriptCounted scriptSig scriptPubKey flags checker).result =
        verifyScript scriptSig scriptPubKey flags checker ∧
      (verifyScriptCounted scriptSig scriptPubKey flags checker).calls ≤
        scriptSig.getSigOpCount true + (scriptPubKey.getSigOpCount true +
          if hasFlag flags SCRIPT_VERIFY_P2SH && scriptPubKey.isPayToScriptHash then
            scriptPubKey.getP2SHSigOpCount scriptSig
          else 0)) ∧
    (∀ script : CScript, script.getSigOpCount true ≤ script.getSigOpCount false) ∧
    ∀ node block pindex pprev view s, connectTransactions node block pindex pprev view = .ok s →
      ∃ checks, blockScriptChecks node block.toCBlockHeader pindex { view } block.vtx = .ok checks ∧
        (∀ check ∈ checks, check.run = .ok (.ok ())) ∧
        sigCalls checks ≤ s.nSigOps + spentSigOps checks ∧ s.nSigOps ≤ MAX_BLOCK_SIGOPS :=
  ⟨fun _ _ _ _ => ⟨verifyScriptCounted_result _ _ _ _,verifyScriptCounted_calls _ _⟩,
    getSigOpCount_le,fun _ _ _ _ _ _ h => connectTransactions_sigOps h⟩

/-- The coin that the block spends checks a signature, which fails, and asks for that. -/
def checkSigView : CCoinsViewCache :=
  diskView [(5,{ vout := [⟨5000,[OP_0,OP_0,OP_CHECKSIG,OP_NOT]⟩], nHeight := 1, nVersion := 1 })]

/-- Connecting the transactions of the block, with the verified scripts. -/
def checkSigRun : Outcome (ConnectState × List CScriptCheck) :=
  letI := spendingCrypto
  connectTransactions (spendingNode regTestParams) spendingBlock spendingIndex spendingPprev
      checkSigView >>= fun s =>
    blockScriptChecks (spendingNode regTestParams) spendingBlock.toCBlockHeader spendingIndex
      { view := checkSigView } spendingBlock.vtx >>= fun checks => .ok (s,checks)

/-- The block is connected with no operation counted, and a signature is checked. -/
theorem spent_operation_not_counted : letI := spendingCrypto
    (connectBlock (spendingNode regTestParams) spendingBlock spendingIndex checkSigView {} false).isOk
      = true ∧
    ∃ s checks, connectTransactions (spendingNode regTestParams) spendingBlock spendingIndex
        spendingPprev checkSigView = .ok s ∧
      blockScriptChecks (spendingNode regTestParams) spendingBlock.toCBlockHeader spendingIndex
        { view := checkSigView } spendingBlock.vtx = .ok checks ∧
      s.nSigOps = 0 ∧ sigCalls checks = 1 := by
  let := spendingCrypto
  refine ⟨by decide +kernel,?_⟩
  have hrun : (fun r => (r.1.nSigOps,sigCalls r.2)) <$> checkSigRun = .ok (0,1) := by decide +kernel
  obtain ⟨⟨s,checks⟩,hboth,hcounts⟩ := map_ok.mp hrun
  obtain ⟨s',hs,hboth⟩ := bind_ok.mp hboth
  obtain ⟨checks',hchecks,hpair⟩ := bind_ok.mp hboth
  cases hpair
  exact ⟨s,checks,hs,hchecks,Prod.mk.inj hcounts⟩

/-- It is paid for by the output script. -/
theorem spent_operation_bounded : letI := spendingCrypto
    ∃ s checks, connectTransactions (spendingNode regTestParams) spendingBlock spendingIndex
        spendingPprev checkSigView = .ok s ∧ sigCalls checks ≤ s.nSigOps + spentSigOps checks := by
  let := spendingCrypto
  obtain ⟨s,hs⟩ := isOk_iff.mp (by decide +kernel : (connectTransactions
    (spendingNode regTestParams) spendingBlock spendingIndex spendingPprev checkSigView).isOk = true)
  obtain ⟨checks,_,_,hcalls,_⟩ := sigOps_bound_calls.2.2 _ _ _ _ _ _ hs
  exact ⟨s,checks,hs,hcalls⟩

end Sidechain
