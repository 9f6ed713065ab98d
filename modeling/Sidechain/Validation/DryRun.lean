import Sidechain.Validation.ChainRun
import Sidechain.Validation.Connected

/-! The dry run against the real run: on the dummy entry of a test of validity a block passes every
check it has to pass on its own entry, and what is left to the real run is to decode its scripts. -/
namespace Sidechain
open Run

section Entries
variable {prev : CBlockIndex} {hashPrev : Uint256} {block : CBlockHeader}
  {phashBlock : Option Uint256}

theorem getAncestor_child (prev : CBlockIndex) (hashPrev : Uint256) (block : CBlockHeader)
    (phashBlock : Option Uint256) (height : ℤ) :
    ((prev.child hashPrev block phashBlock).getAncestor height).map CBlockIndex.getMedianTimePast =
      ((prev.child hashPrev block none).getAncestor height).map CBlockIndex.getMedianTimePast := by
  have hheight : (prev.child hashPrev block phashBlock).nHeight =
    (prev.child hashPrev block none).nHeight := rfl
  unfold CBlockIndex.getAncestor
  rw [hheight]
  split_ifs <;> rfl

theorem sequenceLock_child (lock : LockPair) (input : CTxIn × ℕ) :
    sequenceLock (prev.child hashPrev block phashBlock) lock input =
      sequenceLock (prev.child hashPrev block none) lock input := by
  have hmap := getAncestor_child prev hashPrev block phashBlock (input.2 - 1 : ℕ)
  unfold sequenceLock
  cases h : (prev.child hashPrev block phashBlock).getAncestor (input.2 - 1 : ℕ) with
  | none =>
    rw [h,Option.map_none,eq_comm,Option.map_eq_none_iff] at hmap
    simp only [h,hmap]
  | some ancestor =>
    rw [h,Option.map_some,eq_comm,Option.map_eq_some_iff] at hmap
    obtain ⟨ancestor',h',hmedian⟩ := hmap
    simp only [h,h',hmedian]

theorem sequenceLocks_child (tx : CTransaction) (fVerifySequence : Bool) (prevHeights : List ℕ) :
    sequenceLocks tx fVerifySequence prevHeights (prev.child hashPrev block phashBlock) =
      sequenceLocks tx fVerifySequence prevHeights (prev.child hashPrev block none) := by
  have hstep : sequenceLock (prev.child hashPrev block phashBlock) =
      sequenceLock (prev.child hashPrev block none) := by
    funext lock input
    exact sequenceLock_child lock input
  unfold sequenceLocks calculateSequenceLocks
  rw [hstep]
  rfl

theorem isCheckpointed_dummy {node : Node}
    (hhash : ∀ pcheckpoint ∈ node.lastCheckpoint, pcheckpoint.phashBlock ≠ none) :
    isCheckpointed node (prev.child hashPrev block none) = false := by
  unfold isCheckpointed
  cases hlast : node.lastCheckpoint with
  | none => rfl
  | some pcheckpoint =>
    have hne := hhash pcheckpoint hlast
    simp only [beq_eq_false_iff_ne]
    unfold CBlockIndex.getAncestor
    split_ifs with hout hself
    · exact Option.some_ne_none _ ∘ Eq.symm
    · intro heq
      rw [Option.some.inj heq] at hne
      exact hne rfl
    · unfold CBlockIndex.ofPath
      split
      · exact Option.some_ne_none _ ∘ Eq.symm
      · intro heq
        cases heq

end Entries

/-- The script is marked as a drivechain script and its first push names a kind of object, but
does not hold one. -/
def CScript.Undecodable (script : CScript) : Prop :=
  2 ≤ script.length ∧ script.getLast? = some OP_DRIVECHAIN ∧
    ∃ op vchOP vch reader what, getOp script = some op ∧ op.vch = vchOP::vch ∧
      unserializeObj vchOP = some reader ∧ reader.run op.vch = .error what

theorem drivechainObjCtr_isOk {script : CScript} : (∃ o, drivechainObjCtr script = .ok o) ↔
    ¬ ∃ op vchOP vch reader what, getOp script = some op ∧ op.vch = vchOP::vch ∧
      unserializeObj vchOP = some reader ∧ reader.run op.vch = .error what := by
  unfold drivechainObjCtr
  cases hop : getOp script with
  | none => simp
  | some op =>
    cases hvch : op.vch with
    | nil => simp [hvch]
    | cons vchOP vch =>
      cases hread : unserializeObj vchOP with
      | none => simp [hvch,hread]
      | some reader => cases hrun : reader.run (vchOP::vch) <;> simp [hvch,hread,hrun]

theorem scanScript_isOk {script : CScript} :
    (∃ o, scanScript script = .ok o) ↔ ¬ script.Undecodable := by
  unfold scanScript CScript.Undecodable
  split_ifs with h
  · simp only [Except.ok.injEq,exists_eq',true_iff]
    rintro ⟨hlen,hlast,_⟩
    exact h.elim (fun hlt => by omega) fun hne => hne hlast
  · rw [not_or,not_lt,not_not] at h
    rw [drivechainObjCtr_isOk]
    simp only [h.1,h.2,true_and]

theorem scanOutputs_isOk (txid : Uint256) {vout : List CTxOut} :
    (∃ objs, scanOutputs txid vout = .ok objs) ↔
      ∀ txout ∈ vout, ¬ txout.scriptPubKey.Undecodable := by
  induction vout with
  | nil => simp [scanOutputs]
  | cons txout vout ih =>
    rw [List.forall_mem_cons,← ih,← scanScript_isOk]
    constructor
    · rintro ⟨objs,h⟩
      obtain ⟨o,ho,h⟩ := bind_ok.mp h
      obtain ⟨rest,hrest,_⟩ := bind_ok.mp h
      exact ⟨⟨o,ho⟩,rest,hrest⟩
    · rintro ⟨⟨o,ho⟩,rest,hrest⟩
      exact ⟨_,bind_ok.mpr ⟨o,ho,bind_ok.mpr ⟨rest,hrest,rfl⟩⟩⟩

section
variable [Crypto]

theorem collectDrivechainObjects_isOk {vtx : List CTransaction} :
    (∃ objs, collectDrivechainObjects vtx = .ok objs) ↔
      ∀ tx ∈ vtx, ∀ txout ∈ tx.vout, ¬ txout.scriptPubKey.Undecodable := by
  induction vtx with
  | nil => simp [collectDrivechainObjects]
  | cons tx vtx ih =>
    rw [List.forall_mem_cons,← ih,← scanOutputs_isOk tx.getHash]
    constructor
    · rintro ⟨objs,h⟩
      obtain ⟨found,hfound,h⟩ := bind_ok.mp h
      obtain ⟨rest,hrest,_⟩ := bind_ok.mp h
      exact ⟨⟨found,hfound⟩,rest,hrest⟩
    · rintro ⟨⟨found,hfound⟩,rest,hrest⟩
      exact ⟨_,bind_ok.mpr ⟨found,hfound,bind_ok.mpr ⟨rest,hrest,rfl⟩⟩⟩

omit [Crypto] in
/-- A node that has an index entry of the block: the entry may be a checkpoint, and more time may
have passed. Entries have hashes. -/
structure Node.Indexed (node node' : Node) : Prop where
  consensus : node'.consensus = node.consensus
  adjustedTime : node.adjustedTime ≤ node'.adjustedTime
  csvActive : node'.csvActive = node.csvActive
  nScriptCheckThreads : node'.nScriptCheckThreads = node.nScriptCheckThreads
  mapBlockIndex : ∀ hash nHeight, node.mapBlockIndex hash = some nHeight →
    node'.mapBlockIndex hash = some nHeight
  lastCheckpoint : ∀ pcheckpoint ∈ node.lastCheckpoint, pcheckpoint.phashBlock ≠ none

omit [Crypto] in
theorem getSpendHeight_follows {mapBlockIndex mapBlockIndex' : Uint256 → Option ℕ}
    {inputs : CCoinsViewCache} {nSpendHeight : ℕ}
    (hmap : ∀ hash nHeight, mapBlockIndex hash = some nHeight → mapBlockIndex' hash = some nHeight)
    (h : getSpendHeight mapBlockIndex inputs = .ok nSpendHeight) :
    getSpendHeight mapBlockIndex' inputs = .ok nSpendHeight := by
  unfold getSpendHeight at h ⊢
  split at h
  · cases h
  · rename_i nHeight hheight
    rw [hmap _ _ hheight]
    exact h

/-- Without script checks nothing is left to do but the checks of the amounts. -/
theorem checkInputs_follows {mapBlockIndex mapBlockIndex' : Uint256 → Option ℕ} {tx : CTransaction}
    {inputs : CCoinsViewCache} {flags : ScriptFlags} {fQueue : Bool} {vChecks : List CScriptCheck}
    (hmap : ∀ hash nHeight, mapBlockIndex hash = some nHeight → mapBlockIndex' hash = some nHeight)
    (h : checkInputs mapBlockIndex tx inputs true flags fQueue = .ok vChecks)
    (fScriptChecks : Bool) :
    ∃ vChecks', checkInputs mapBlockIndex' tx inputs fScriptChecks flags fQueue = .ok vChecks' ∧
      vChecks' ⊆ vChecks := by
  cases hcb : tx.isCoinBase with
  | true => exact ⟨[],by rw [checkInputs,if_pos hcb],List.nil_subset _⟩
  | false =>
    rw [checkInputs,if_neg (by simp [hcb])] at h ⊢
    obtain ⟨nSpendHeight,hspend,h⟩ := bind_ok.mp h
    obtain ⟨_,hamounts,h⟩ := bind_ok.mp h
    rw [getSpendHeight_follows hmap hspend]
    cases fScriptChecks with
    | false => exact ⟨[],bind_ok.mpr ⟨_,rfl,bind_ok.mpr ⟨(),hamounts,rfl⟩⟩,List.nil_subset _⟩
    | true => exact ⟨vChecks,bind_ok.mpr ⟨_,rfl,bind_ok.mpr ⟨(),hamounts,h⟩⟩,List.Subset.refl _⟩

/-- The real run has the same results, with at most as many scripts left to check. -/
def Follows (s s' : ConnectState) : Prop := ∃ vChecks ⊆ s.vChecks, s' = { s with vChecks }

section
variable {node node' : Node} {prev : CBlockIndex} {hashPrev : Uint256} {hdr : CBlockHeader}
  {phashBlock : Option Uint256}

omit [Crypto] in
theorem blockScriptFlags_child (h : node.Indexed node') :
    blockScriptFlags node' hdr (prev.child hashPrev hdr phashBlock) =
      blockScriptFlags node hdr (prev.child hashPrev hdr none) := by
  unfold blockScriptFlags
  rw [h.consensus,h.csvActive]
  rfl

theorem connectInputs_follows (h : node.Indexed node') {s s' s₁ : ConnectState} {tx : CTransaction}
    (hs : Follows s s') (hrun : connectInputs node hdr (prev.child hashPrev hdr none) s tx = .ok s₁) :
    ∃ s₁', connectInputs node' hdr (prev.child hashPrev hdr phashBlock) s' tx = .ok s₁' ∧
      Follows s₁ s₁' := by
  obtain ⟨vChecks,hsub,rfl⟩ := hs
  cases hcb : tx.isCoinBase with
  | true =>
    rw [connectInputs,if_pos hcb] at hrun ⊢
    cases hrun
    exact ⟨_,rfl,vChecks,hsub,rfl⟩
  | false =>
    rw [connectInputs,if_neg (by simp [hcb])] at hrun ⊢
    simp only [bind_ok,pure_ok] at hrun
    obtain ⟨_,hin,prevheights,hprev,fFinal,hfinal,_,hreq,nSigOps,hsig,nValueIn,hvin,nValueOut,hvout,
      nTxFee,hfee,nFees,hfees,checks,hchecks,rfl⟩ := hrun
    rw [isCheckpointed_dummy h.lastCheckpoint] at hchecks
    obtain ⟨checks',hchecks',hsub'⟩ := checkInputs_follows h.mapBlockIndex hchecks
      (!isCheckpointed node' (prev.child hashPrev hdr phashBlock))
    refine ⟨_,?_,vChecks ++ checks',List.append_subset.mpr
      ⟨List.subset_append_of_subset_left _ hsub,List.subset_append_of_subset_right _ hsub'⟩,rfl⟩
    simp only [bind_ok,pure_ok]
    refine ⟨(),hin,prevheights,hprev,fFinal,?_,(),hreq,nSigOps,hsig,nValueIn,hvin,nValueOut,hvout,
      nTxFee,hfee,nFees,hfees,checks',?_,rfl⟩
    · rw [h.csvActive,sequenceLocks_child]
      exact hfinal
    · rw [h.nScriptCheckThreads,blockScriptFlags_child h]
      exact hchecks'

theorem connectTx_follows (h : node.Indexed node') {s s' s₁ : ConnectState} {tx : CTransaction}
    (hs : Follows s s') (hrun : connectTx node hdr (prev.child hashPrev hdr none) s tx = .ok s₁) :
    ∃ s₁', connectTx node' hdr (prev.child hashPrev hdr phashBlock) s' tx = .ok s₁' ∧
      Follows s₁ s₁' := by
  simp only [connectTx,bind_ok,pure_ok] at hrun
  obtain ⟨_,hreq,m,hm,⟨view,txundo⟩,hup,rfl⟩ := hrun
  obtain ⟨vChecks,hsub,rfl⟩ := hs
  have hcounted : Follows { s with nSigOps := s.nSigOps + getLegacySigOpCount tx }
      { s with nSigOps := s.nSigOps + getLegacySigOpCount tx, vChecks } := ⟨vChecks,hsub,rfl⟩
  obtain ⟨m',hm',vChecks',hsub',rfl⟩ := connectInputs_follows h hcounted hm
  refine ⟨_,?_,vChecks',hsub',rfl⟩
  simp only [connectTx,bind_ok,pure_ok]
  exact ⟨(),hreq,_,hm',(view,txundo),hup,rfl⟩

omit [Crypto] in
theorem enforceBIP30_child (h : node.Indexed node')
    {pprev : CBlockIndex}
    (henforce : enforceBIP30 node' (prev.child hashPrev hdr phashBlock) pprev = true) :
    enforceBIP30 node (prev.child hashPrev hdr none) pprev = true := by
  unfold enforceBIP30 at henforce ⊢
  rw [h.consensus] at henforce
  rw [Bool.and_eq_true] at henforce ⊢
  exact ⟨rfl,henforce.2⟩

theorem connectTransactions_follows (phashBlock : Option Uint256) (h : node.Indexed node')
    {block : CBlock} {pprev : CBlockIndex} {view : CCoinsViewCache} {s : ConnectState}
    (hrun : connectTransactions node block (prev.child hashPrev block.toCBlockHeader none) pprev
      view = .ok s) :
    ∃ s', connectTransactions node' block (prev.child hashPrev block.toCBlockHeader phashBlock)
      pprev view = .ok s' ∧ Follows s s' := by
  simp only [connectTransactions,bind_ok,forM_ok,pure_ok] at hrun
  obtain ⟨_,hover,s,htxs,_,hwait,rfl⟩ := hrun
  have hstart : Follows { view } { view } := ⟨[],List.Subset.refl _,rfl⟩
  obtain ⟨s',htxs',hs'⟩ := foldlM_follows Follows
    (g := connectTx node' block.toCBlockHeader (prev.child hashPrev block.toCBlockHeader phashBlock))
    (fun tx _ m m' n hR hm => connectTx_follows h hR hm) hstart htxs
  refine ⟨s',?_,hs'⟩
  simp only [connectTransactions,bind_ok,forM_ok,pure_ok]
  refine ⟨(),fun tx htx => ?_,s',htxs',(),?_,rfl⟩
  · split_ifs at htx with henforce
    · rw [if_pos (enforceBIP30_child h henforce)] at hover
      exact hover tx htx
    · cases htx
  · obtain ⟨vChecks,hsub,rfl⟩ := hs'
    unfold waitForChecks at hwait ⊢
    rw [forM_ok] at hwait ⊢
    exact fun check hcheck => hwait check (hsub hcheck)

theorem checkBlock_real {consensus : Params} {adjustedTime adjustedTime' : ℤ} {block : CBlock}
    (htime : adjustedTime ≤ adjustedTime')
    (hpow : checkProofOfWork block.getHash block.nBits consensus.powLimit = true)
    (hmerkle : checkMerkleRoot block true = .ok ())
    (hdry : checkBlock consensus adjustedTime block false false = .ok ()) :
    checkBlock consensus adjustedTime' block true true = .ok () := by
  simp only [checkBlock,checkBlockHeader,bind_ok,require_dos_ok,invalid] at hdry ⊢
  obtain ⟨_,⟨_,_,hold⟩,_,_,hrest⟩ := hdry
  refine ⟨(),⟨(),?_,?_⟩,(),hmerkle,hrest⟩
  · exact fun hbad => hbad.2 hpow
  · exact fun hnew => hold (by omega)

omit [Crypto] in
theorem writeUndo_total (hdisk : node.disk = {}) (pindex : CBlockIndex) (blockundo : CBlockUndo)
    (disk : Disk) : ∃ disk', writeUndo node pindex blockundo disk = .ok disk' := by
  unfold writeUndo
  rw [hdisk]
  split
  · exact ⟨_,rfl⟩
  · exact ⟨_,rfl⟩

theorem writeTxIndex_total (hdisk : node.disk = {}) (block : CBlock) (disk : Disk) :
    ∃ disk', writeTxIndex node block disk = .ok disk' := by
  unfold writeTxIndex
  rw [hdisk]
  split_ifs
  · exact ⟨_,rfl⟩
  · exact ⟨_,rfl⟩

theorem writeDrivechain_isOk (hdisk : node.disk = {}) {block : CBlock} {disk : Disk} :
    (∃ disk', writeDrivechain node block disk = .ok disk') ↔ disk.pdrivechaintree = none ∨
      ∀ tx ∈ block.vtx, ∀ txout ∈ tx.vout, ¬ txout.scriptPubKey.Undecodable := by
  unfold writeDrivechain
  rw [hdisk,← collectDrivechainObjects_isOk]
  cases hdb : disk.pdrivechaintree with
  | none => simp
  | some db =>
    simp only [fDrivechainIndex,Bool.not_true,Bool.false_eq_true,if_false,reduceCtorEq,false_or]
    constructor
    · rintro ⟨disk',h⟩
      obtain ⟨objs,hobjs,_⟩ := bind_ok.mp h
      exact ⟨objs,hobjs⟩
    · rintro ⟨objs,hobjs⟩
      rw [hobjs]
      cases hempty : objs.isEmpty with
      | true => exact ⟨disk,by simp [bind,Except.bind,hempty,pure,Except.pure]⟩
      | false => exact ⟨_,by simp [bind,Except.bind,hempty,pure,Except.pure,require]; rfl⟩

theorem connectBlock_dry {block : CBlock} {pindex : CBlockIndex} {viewNew view : CCoinsViewCache}
    {disk disk' : Disk} (h : connectBlock node block pindex viewNew disk true = .ok (view,disk'))
    (hgen : isGenesis node block = false) : ∃ pprev s, pindex.pprev = some pprev ∧
      connectTransactions node block pindex pprev viewNew = .ok s ∧ s.view = view := by
  simp only [connectBlock,bind_ok,require_error_ok] at h
  obtain ⟨_,_,_,_,_,_,h⟩ := h
  rw [if_neg (by simp [hgen])] at h
  unfold connectNonGenesis at h
  split at h
  · cases h
  · rename_i pprev hprev
    simp only [if_true,bind_ok,pure_ok] at h
    obtain ⟨s,hs,heq⟩ := h
    cases heq
    exact ⟨pprev,s,hprev,hs,rfl⟩

/-- The indexes are written in the order undo data, transactions, drivechain objects. -/
theorem connectBlock_real (h : node.Indexed node') (hdisk : node'.disk = {}) {block : CBlock}
    {viewNew view : CCoinsViewCache} {disk disk₁ : Disk}
    (hpow : checkProofOfWork block.getHash block.nBits node.consensus.powLimit = true)
    (hmerkle : checkMerkleRoot block true = .ok ())
    (hdry : connectBlock node block (prev.child hashPrev block.toCBlockHeader none) viewNew disk
      true = .ok (view,disk₁)) :
    (∃ view' disk', connectBlock node' block
      (prev.child hashPrev block.toCBlockHeader (some block.getHash)) viewNew disk false =
        .ok (view',disk') ∧ view'.utxo = view.utxo) ↔ isGenesis node block = true ∨
      disk.pdrivechaintree = none ∨
        ∀ tx ∈ block.vtx, ∀ txout ∈ tx.vout, ¬ txout.scriptPubKey.Undecodable := by
  have hgenesis : isGenesis node' block = isGenesis node block := by
    unfold isGenesis
    rw [h.consensus]
  have hchecks := hdry
  simp only [connectBlock,bind_ok,require_error_ok] at hchecks
  obtain ⟨_,hcheck,best,hbest,_,heq,hrest⟩ := hchecks
  have hcheck' := checkBlock_real h.adjustedTime hpow hmerkle hcheck
  rw [← h.consensus] at hcheck'
  cases hgen : isGenesis node block with
  | true =>
    simp only [hgen,if_true,pure_ok] at hrest
    cases hrest
    refine iff_of_true ⟨viewNew.setBestBlock block.getHash,disk,?_,rfl⟩ (.inl rfl)
    simp only [connectBlock,bind_ok,require_error_ok]
    refine ⟨(),hcheck',best,hbest,(),heq,?_⟩
    rw [if_pos (hgenesis.trans hgen)]
    rfl
  | false =>
    obtain ⟨pprev,s,hpprev,hs,rfl⟩ := connectBlock_dry hdry hgen
    obtain ⟨s',hs',vChecks,_,rfl⟩ := connectTransactions_follows
      (some block.getHash) h hs
    simp only [Bool.false_eq_true,false_or]
    constructor
    · rintro ⟨view',disk',hreal,_⟩
      obtain ⟨_,_,_,hb⟩ := connectBlock_ok hreal (hgenesis.trans hgen)
      obtain ⟨d₁,d₂,h₁,h₂,h₃⟩ := hb.undo
      rw [← (writeUndo_ok h₁).1,← (writeTxIndex_ok h₂).1]
      exact (writeDrivechain_isOk hdisk).mp ⟨disk',h₃⟩
    · intro hdecode
      obtain ⟨d₁,h₁⟩ := writeUndo_total hdisk
        (prev.child hashPrev block.toCBlockHeader (some block.getHash)) ⟨s.vtxundo⟩ disk
      obtain ⟨d₂,h₂⟩ := writeTxIndex_total hdisk block d₁
      rw [← (writeUndo_ok h₁).1,← (writeTxIndex_ok h₂).1] at hdecode
      obtain ⟨d₃,h₃⟩ := (writeDrivechain_isOk hdisk).mpr hdecode
      refine ⟨s.view.setBestBlock block.getHash,d₃,?_,rfl⟩
      simp only [connectBlock,bind_ok,require_error_ok]
      refine ⟨(),hcheck',best,hbest,(),heq,?_⟩
      rw [if_neg (by simp [hgenesis,hgen]),connectNonGenesis]
      have hpprev' : (prev.child hashPrev block.toCBlockHeader (some block.getHash)).pprev =
        some pprev := hpprev
      simp only [hpprev',Bool.false_eq_true,if_false,bind_ok,pure_ok]
      exact ⟨_,hs',d₁,h₁,d₂,h₂,d₃,h₃,block.getHash,rfl,rfl⟩

theorem connectBlock_coinbase {block : CBlock} {cb : CTransaction} {pindex pprev : CBlockIndex}
    {view : CCoinsViewCache} {disk : Disk} {hash : Uint256} {objs : List DrivechainObj} (hvtx : block.vtx = [cb])
    (hcb : cb.isCoinBase = true)
    (hcheck : checkBlock node.consensus node.adjustedTime block true true = .ok ())
    (hgen : isGenesis node block = false) (hprev : pindex.pprev = some pprev)
    (hbest : prevBlockHash pindex = .ok view.getBestBlock) (hhash : pindex.phashBlock = some hash)
    (hfresh : view.accessCoins cb.getHash = none) (hdisk : node.disk = {})
    (hops : getLegacySigOpCount cb ≤ MAX_BLOCK_SIGOPS)
    (hobjs : scanOutputs cb.getHash cb.vout = .ok objs) :
    ∃ view' disk', connectBlock node block pindex view disk false = .ok (view',disk') := by
  have hoverwrite : forM (if enforceBIP30 node pindex pprev then block.vtx else [])
      (checkOverwrite view) = .ok () := by
    rw [forM_ok]
    intro tx htx
    split_ifs at htx
    · rw [hvtx,List.mem_singleton] at htx
      rw [htx,checkOverwrite,hfresh]
    · cases htx
  have htx : ∃ s, connectTx node block.toCBlockHeader pindex { view } cb = .ok s ∧
      s.vChecks = [] := by
    simp only [connectTx,connectInputs,hcb,if_true,CCoinsViewCache.updateCoins,bind_ok,
      require_dos_ok,pure_ok]
    exact ⟨_,⟨(),by simpa using hops,_,rfl,_,rfl,rfl⟩,rfl⟩
  obtain ⟨s,hs,hchecks⟩ := htx
  have htxs : connectTransactions node block pindex pprev view = .ok s := by
    simp only [connectTransactions,bind_ok,pure_ok,hvtx,foldlM_singleton_ok]
    exact ⟨(),hvtx ▸ hoverwrite,s,hs,(),by rw [hchecks]; rfl,rfl⟩
  obtain ⟨d₁,h₁⟩ := writeUndo_total hdisk pindex ⟨s.vtxundo⟩ disk
  obtain ⟨d₂,h₂⟩ := writeTxIndex_total hdisk block d₁
  have hscan : ∀ tx ∈ block.vtx, ∀ out ∈ tx.vout, ¬ out.scriptPubKey.Undecodable := by
    rw [hvtx]
    intro tx htx
    rw [List.mem_singleton.mp htx]
    exact (scanOutputs_isOk cb.getHash).mp ⟨objs,hobjs⟩
  obtain ⟨d₃,h₃⟩ := (writeDrivechain_isOk hdisk).mpr (.inr hscan)
  refine ⟨s.view.setBestBlock hash,d₃,?_⟩
  simp only [connectBlock,bind_ok,require_error_ok]
  refine ⟨(),hcheck,_,hbest,(),rfl,?_⟩
  rw [if_neg (by simp [hgen]),connectNonGenesis]
  simp only [hprev,Bool.false_eq_true,if_false,bind_ok,pure_ok,CBlockIndex.getBlockHash_ok]
  exact ⟨s,htxs,d₁,h₁,d₂,h₂,d₃,h₃,hash,hhash,rfl⟩

end

/-- What the test of validity predicts of a block with a valid nonce and merkle root: it connects
with the same coins exactly if all its drivechain scripts can be decoded. -/
theorem testBlockValidity_predicts {rules : HeaderRules} {node node' : Node}
    {tip : Option CBlockIndex} {viewNew : CCoinsViewCache} {disk : Disk} {block : CBlock}
    {pindexPrev : CBlockIndex} {hashPrev : Uint256} {fCheckPOW fCheckMerkleRoot : Bool}
    (hindexed : node.Indexed node') (hdisk : node'.disk = {})
    (hprev : pindexPrev.phashBlock = some hashPrev)
    (hpow : checkProofOfWork block.getHash block.nBits node.consensus.powLimit = true)
    (hmerkle : checkMerkleRoot block true = .ok ())
    (htest : testBlockValidity rules node tip viewNew disk block (some pindexPrev) fCheckPOW
      fCheckMerkleRoot = .ok ()) :
    (∃ view d view' disk',
      connectBlock node block (pindexPrev.child hashPrev block.toCBlockHeader none) viewNew disk
        true = .ok (view,d) ∧
      connectBlock node' block
        (pindexPrev.child hashPrev block.toCBlockHeader (some block.getHash)) viewNew disk false =
          .ok (view',disk') ∧ view'.utxo = view.utxo) ↔
      isGenesis node block = true ∨ disk.pdrivechaintree = none ∨
        ∀ tx ∈ block.vtx, ∀ txout ∈ tx.vout, ¬ txout.scriptPubKey.Undecodable := by
  obtain ⟨hash,view,d,hhash,hdry⟩ := testBlockValidity_ok htest
  obtain rfl : hash = hashPrev := Option.some.inj (hhash.symm.trans hprev)
  rw [← connectBlock_real hindexed hdisk hpow hmerkle hdry]
  constructor
  · rintro ⟨view₁,d₁,view',disk',hdry₁,hreal,hutxo⟩
    rw [hdry] at hdry₁
    cases hdry₁
    exact ⟨view',disk',hreal,hutxo⟩
  · rintro ⟨view',disk',hreal,hutxo⟩
    exact ⟨view,d,view',disk',hdry,hreal,hutxo⟩

end

def regTestRules : HeaderRules where
  getNextWorkRequired _ _ := 0x207fffff

def regTestTip : CBlockIndex :=
  ⟨some regTestParams.hashGenesisBlock,regTestHeader.nVersion,regTestHeader.nTime,[]⟩

def minedTx (outputs : List CTxOut) : CTransaction :=
  { vin := [{ prevout := .null, scriptSig := pushInt64 1 ++ [OP_0] }]
    vout := ⟨50 * COIN,[OP_1]⟩ :: outputs }

/-- A script that is too short for the withdrawal it announces. -/
def truncatedWithdraw : CScript := [1,opWithdraw,OP_DRIVECHAIN]

def truncatedBlock : CBlock := regTestBlock regTestParams.hashGenesisBlock
  0x6031512cf73864f1e80e7e03078bfc98af59b22638e2655ba6d454a844809fe7 1296688603 1
  [minedTx [⟨0,truncatedWithdraw⟩]]

def plainBlock : CBlock := regTestBlock regTestParams.hashGenesisBlock
  0xb2060669568c6f48038977c35296af9468f9dce9259ac9c0104e8506452554b7 1296688603 3 [minedTx []]

@[reducible] def minedCrypto : Crypto := regTestCrypto
  [((minedTx [⟨0,truncatedWithdraw⟩]).serialize,truncatedBlock.hashMerkleRoot),
    (truncatedBlock.toCBlockHeader.serialize,
      0x08e5dfc26ae2d4a7a4f003869d97d81dd910df675e8b08289cb6c9ef61c1af1c),
    ((minedTx []).serialize,plainBlock.hashMerkleRoot),
    (plainBlock.toCBlockHeader.serialize,
      0x07365a0a31af65196d046baf9fa53c6d6c166b4660c79cef964f83d55a1619ac)]

theorem regTestNode_indexed : regTestNode.Indexed regTestNode where
  consensus := rfl
  adjustedTime := le_rfl
  csvActive := rfl
  nScriptCheckThreads := rfl
  mapBlockIndex _ _ h := h
  lastCheckpoint _ h := nomatch h

/-- Whether the dry run accepts a block after genesis. -/
def testFirst (block : CBlock) : Outcome Unit :=
  letI := minedCrypto
  testBlockValidity regTestRules regTestNode (some regTestTip) regTestGenesisView {} block
    (some regTestTip) false false

/-- What the real run makes of it. -/
def connectFirst (block : CBlock) : Outcome (CCoinsViewCache × Disk) :=
  letI := minedCrypto
  connectBlock regTestNode block
    (regTestTip.child regTestParams.hashGenesisBlock block.toCBlockHeader (some block.getHash))
    regTestGenesisView {} false

/-- The error a function ends with, if it does. -/
def Outcome.halt {α : Type} : Outcome α → Option Halt
  | .ok _ => none
  | .error h => some h

theorem firstBlock_decodable : letI := keyCrypto
    ∀ tx ∈ firstBlock.vtx, ∀ txout ∈ tx.vout, ¬ txout.scriptPubKey.Undecodable :=
  letI := keyCrypto
  collectDrivechainObjects_isOk.mp (isOk_iff.mp (by decide +kernel))

/-- A block with a withdrawal is connected as predicted. -/
theorem testBlockValidity_predicts_withdrawal : letI := keyCrypto
    ∃ view d view' disk',
      connectBlock regTestNode firstBlock (regTestTip.child regTestParams.hashGenesisBlock
        firstBlock.toCBlockHeader none) regTestGenesisView {} true = .ok (view,d) ∧
      connectBlock regTestNode firstBlock (regTestTip.child regTestParams.hashGenesisBlock
        firstBlock.toCBlockHeader (some firstBlock.getHash)) regTestGenesisView {} false =
          .ok (view',disk') ∧
      view'.utxo = view.utxo ∧ collectDrivechainObjects firstBlock.vtx ≠ .ok [] := by
  let := keyCrypto
  have htest : testBlockValidity regTestRules regTestNode (some regTestTip) regTestGenesisView {}
      firstBlock (some regTestTip) false false = .ok () := by decide +kernel
  obtain ⟨view,d,view',disk',hdry,hreal,hutxo⟩ := (testBlockValidity_predicts regTestNode_indexed rfl
    rfl (by decide +kernel) (by decide +kernel) htest).mpr (.inr (.inr firstBlock_decodable))
  exact ⟨view,d,view',disk',hdry,hreal,hutxo,by decide +kernel⟩

/-- The dry run accepts a block whose real run throws. -/
theorem testBlockValidity_truncated : letI := minedCrypto
    checkProofOfWork truncatedBlock.getHash truncatedBlock.nBits regTestParams.powLimit = true ∧
      checkMerkleRoot truncatedBlock true = .ok () ∧ testFirst truncatedBlock = .ok () ∧
      (connectFirst truncatedBlock).halt =
        some (.exception "CDataStream::read(): end of data") := by
  refine ⟨?_,?_,?_,?_⟩
  · decide +kernel
  · decide +kernel
  · decide +kernel
  · decide +kernel

end Sidechain
