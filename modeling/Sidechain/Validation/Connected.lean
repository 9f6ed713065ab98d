import Sidechain.Validation.ConnectBlock

/-! What a connected block has done: every transaction found its inputs and was taken over by the
view, the undo data was kept, and the drivechain index got all objects of the block. -/
namespace Sidechain
open Run

theorem writeUndo_ok {node : Node} {pindex : CBlockIndex} {blockundo : CBlockUndo}
    {disk disk' : Disk} (h : writeUndo node pindex blockundo disk = .ok disk') :
    disk'.pdrivechaintree = disk.pdrivechaintree ∧
      (disk.undo pindex = none → disk'.undo pindex = some blockundo) := by
  unfold writeUndo at h
  split at h
  · rename_i undo hundo
    cases h
    exact ⟨rfl,fun hnone => by rw [hundo] at hnone; cases hnone⟩
  · simp only [bind_ok,pure_ok] at h
    obtain ⟨_,_,_,_,rfl⟩ := h
    exact ⟨rfl,fun _ => Function.update_self _ _ _⟩

/-- The objects found are those of the drivechain scripts among the outputs, with the txid of
their transaction. -/
theorem mem_scanOutputs {txid : Uint256} {vout : List CTxOut} {objs : List DrivechainObj}
    (h : scanOutputs txid vout = .ok objs) {obj : DrivechainObj} : obj ∈ objs ↔
      ∃ txout ∈ vout, ∃ o, scanScript txout.scriptPubKey = .ok (some o) ∧ o.setTxid txid = obj := by
  induction vout generalizing objs with
  | nil =>
    cases h
    simp
  | cons txout vout ih =>
    simp only [scanOutputs,bind_ok,pure_ok] at h
    obtain ⟨o,ho,rest,hrest,rfl⟩ := h
    rw [List.mem_append,ih hrest,List.exists_mem_cons_iff,ho]
    cases o with
    | none => simp
    | some o => simp [eq_comm]

theorem CTransaction.Checked.spends_nodup {tx : CTransaction} (h : tx.Checked) :
    tx.spends.Nodup := by
  unfold CTransaction.spends
  split_ifs
  · exact List.nodup_nil
  · exact h.nodup

theorem CTransaction.Checked.canonical {tx : CTransaction} (h : tx.Checked) (nHeight : ℕ) :
    (CCoins.fromTx tx nHeight).Canonical := by
  apply CCoins.canonical_clearUnspendable
  intro out hout hnull
  have hneg : out.nValue = -1 := by simpa [CTxOut.isNull] using hnull
  have h0 := h.values.nonneg out hout
  rw [hneg] at h0
  exact absurd h0 (by decide)

theorem scanScript_of_mem {block : CBlock} (hsize : block.getSerializeSize ≤ MAX_BLOCK_SIZE)
    {tx : CTransaction} (htx : tx ∈ block.vtx) {nValue : CAmount} {obj : DrivechainObj}
    (hout : ⟨nValue,obj.getScript⟩ ∈ tx.vout) :
    scanScript obj.getScript = .ok (some (obj.setTxid 0)) := by
  have hscript : obj.getScript.length ≤ tx.getSerializeSize := CTransaction.size_of_mem_vout hout
  have htx := CBlock.size_of_mem htx
  have hobj := obj.serialize_le_getScript
  have hmax : MAX_BLOCK_SIZE = 1000000 := rfl
  have hstream : MAX_SIZE = 33554432 := rfl
  exact obj.scanScript_getScript (DrivechainObj.fits_of_size (by omega)) (by omega)

variable [Crypto]

/-- One transaction: its inputs were there, and the view took it over. -/
structure TxConnected (nHeight : ℕ) (tx : CTransaction) (s s' : ConnectState) : Prop where
  haveInputs : tx.isCoinBase = false → s.view.haveInputs tx = true
  i : s'.i = s.i + 1
  updated : ∃ txundo, s.view.updateCoins tx nHeight = .ok (s'.view,txundo) ∧
    s'.vtxundo = if s.i > 0 then s.vtxundo ++ [txundo] else s.vtxundo

/-- Its effect on the map of a well-formed view. -/
structure TxEffect (nHeight : ℕ) (tx : CTransaction) (s s' : ConnectState) : Prop where
  available : ∀ o ∈ tx.spends, s.view.utxo o.hash o.n.toNat ≠ none
  utxo : s'.view.utxo = Function.update (Utxo.spendAll s.view.utxo tx.spends) tx.getHash
    (CCoins.created tx nHeight)
  undo : ∃ txundo : CTxUndo, Utxo.Undoes s.view.utxo tx.spends txundo.vprevout ∧
    s'.vtxundo = if s.i > 0 then s.vtxundo ++ [txundo] else s.vtxundo
  i : s'.i = s.i + 1
  wf : s'.view.Wf
  same : CCoinsViewCache.Same s.view s'.view

theorem TxConnected.effect {nHeight : ℕ} {tx : CTransaction} {s s' : ConnectState}
    (h : TxConnected nHeight tx s s') (hv : s.view.Wf) (hc : tx.Checked)
    (hbase : tx.isCoinBase = false → s.view.base.utxo tx.getHash = fun _ => none) :
    TxEffect nHeight tx s s' := by
  have havail : ∀ o ∈ tx.spends, s.view.utxo o.hash o.n.toNat ≠ none := by
    cases hcb : tx.isCoinBase with
    | true => simp [CTransaction.spends,hcb]
    | false => exact CCoinsViewCache.haveInputs_iff.mp (h.haveInputs hcb)
  obtain ⟨v,undo,hrun,hmap,hundo,hwf,hsame⟩ :=
    hv.updateCoins hc.spends_nodup havail hbase (hc.canonical nHeight)
  obtain ⟨txundo,hup,hs'⟩ := h.updated
  rw [hup] at hrun
  cases hrun
  exact ⟨havail,hmap,⟨_,hundo,hs'⟩,h.i,hwf,hsame⟩

theorem connectInputs_ok {node : Node} {block : CBlockHeader} {pindex : CBlockIndex}
    {s s' : ConnectState} {tx : CTransaction}
    (h : connectInputs node block pindex s tx = .ok s') :
    (tx.isCoinBase = false → s.view.haveInputs tx = true) ∧ s'.view = s.view ∧ s'.i = s.i ∧
      s'.vtxundo = s.vtxundo := by
  unfold connectInputs at h
  split_ifs at h with hcb
  · cases h
    exact ⟨fun hf => absurd hcb (by simp [hf]),rfl,rfl,rfl⟩
  · simp only [bind_ok,require_dos_ok,pure_ok] at h
    obtain ⟨_,hin,_,_,_,_,_,_,_,_,_,_,_,_,_,_,_,_,_,_,rfl⟩ := h
    exact ⟨fun _ => hin,rfl,rfl,rfl⟩

theorem connectTx_ok {node : Node} {block : CBlockHeader} {pindex : CBlockIndex}
    {s s' : ConnectState} {tx : CTransaction} (h : connectTx node block pindex s tx = .ok s') :
    TxConnected pindex.nHeight tx s s' := by
  simp only [connectTx,bind_ok,require_dos_ok,pure_ok] at h
  obtain ⟨_,_,s₁,hs₁,⟨view,txundo⟩,hup,rfl⟩ := h
  obtain ⟨hin,hview,hi,hundo⟩ := connectInputs_ok hs₁
  rw [hview] at hup
  exact ⟨hin,by rw [hi],txundo,hup,by rw [hi,hundo]⟩

theorem checkOverwrite_ok {view : CCoinsViewCache} {tx : CTransaction} {u : Unit} :
    checkOverwrite view tx = .ok u ↔ view.utxo tx.getHash = fun _ => none := by
  unfold checkOverwrite
  cases h : view.accessCoins tx.getHash with
  | none => simp [CCoinsViewCache.utxo_of_accessCoins_none h]
  | some coins =>
    rw [require_dos_ok,CCoins.isPruned_iff,CCoinsViewCache.accessCoins_coinAt h]

theorem connectTransactions_ok {node : Node} {block : CBlock} {pindex pprev : CBlockIndex}
    {view : CCoinsViewCache} {s : ConnectState}
    (h : connectTransactions node block pindex pprev view = .ok s) :
    (enforceBIP30 node pindex pprev = true →
      ∀ tx ∈ block.vtx, view.utxo tx.getHash = fun _ => none) ∧
    block.vtx.foldlM (connectTx node block.toCBlockHeader pindex) { view } = .ok s := by
  simp only [connectTransactions,bind_ok,forM_ok,pure_ok] at h
  obtain ⟨_,hover,s',hrun,_,_,rfl⟩ := h
  refine ⟨fun henforce tx htx => ?_,hrun⟩
  rw [if_pos henforce] at hover
  exact checkOverwrite_ok.mp (hover tx htx)

theorem writeTxIndex_ok {node : Node} {block : CBlock} {disk disk' : Disk}
    (h : writeTxIndex node block disk = .ok disk') :
    disk'.pdrivechaintree = disk.pdrivechaintree ∧ disk'.undo = disk.undo := by
  unfold writeTxIndex at h
  split_ifs at h
  · cases h
    exact ⟨rfl,rfl⟩
  · simp only [bind_ok,pure_ok] at h
    obtain ⟨_,_,rfl⟩ := h
    exact ⟨rfl,rfl⟩

theorem writeDrivechain_ok {node : Node} {block : CBlock} {disk disk' : Disk}
    (h : writeDrivechain node block disk = .ok disk') : disk'.undo = disk.undo ∧
      ∀ db, disk.pdrivechaintree = some db → ∃ objs, collectDrivechainObjects block.vtx = .ok objs ∧
        disk'.pdrivechaintree =
          some (db.writeDrivechainIndex (objs.map fun obj => (obj.getHash,obj))) := by
  unfold writeDrivechain at h
  split at h
  · rename_i hnone
    cases h
    exact ⟨rfl,fun db hdb => by rw [hnone] at hdb; cases hdb⟩
  · rename_i db hdb
    rw [if_neg (by decide)] at h
    obtain ⟨objs,hobjs,hw⟩ := bind_ok.mp h
    rw [hdb]
    split_ifs at hw with hempty
    · obtain rfl := pure_ok.mp hw
      refine ⟨rfl,fun db' hdb' => ⟨objs,hobjs,?_⟩⟩
      cases hdb'
      rw [List.isEmpty_iff.mp hempty,hdb]
      rfl
    · simp only [bind_ok,pure_ok] at hw
      obtain ⟨_,_,rfl⟩ := hw
      refine ⟨rfl,fun db' hdb' => ⟨objs,hobjs,?_⟩⟩
      cases hdb'
      rfl

theorem mem_collectDrivechainObjects {vtx : List CTransaction} {objs : List DrivechainObj}
    (h : collectDrivechainObjects vtx = .ok objs) {obj : DrivechainObj} : obj ∈ objs ↔
      ∃ tx ∈ vtx, ∃ txout ∈ tx.vout, ∃ o, scanScript txout.scriptPubKey = .ok (some o) ∧
        o.setTxid tx.getHash = obj := by
  induction vtx generalizing objs with
  | nil =>
    cases h
    simp
  | cons tx vtx ih =>
    simp only [collectDrivechainObjects,bind_ok,pure_ok] at h
    obtain ⟨found,hfound,rest,hrest,rfl⟩ := h
    rw [List.mem_append,ih hrest,mem_scanOutputs hfound,List.exists_mem_cons_iff]

theorem fits_of_collectDrivechainObjects {vtx : List CTransaction} {objs : List DrivechainObj}
    (h : collectDrivechainObjects vtx = .ok objs) : ∀ obj ∈ objs, obj.Fits := by
  intro obj hobj
  obtain ⟨tx,_,txout,_,o,ho,rfl⟩ := (mem_collectDrivechainObjects h).mp hobj
  exact (DrivechainObj.setTxid_fits _ _).mpr (scanScript_wf ho).1

/-- A block past genesis that was connected for good. -/
structure BlockConnected (node : Node) (block : CBlock) (pindex : CBlockIndex)
    (view : CCoinsViewCache) (disk : Disk) (view' : CCoinsViewCache) (disk' : Disk)
    (pprev : CBlockIndex) (hash : Uint256) (s : ConnectState) : Prop where
  checked : block.Checked
  prev : pindex.pprev = some pprev
  phashBlock : pindex.phashBlock = some hash
  best : prevBlockHash pindex = .ok view.getBestBlock
  txs : connectTransactions node block pindex pprev view = .ok s
  view_eq : view' = s.view.setBestBlock hash
  undo : ∃ d₁ d₂, writeUndo node pindex ⟨s.vtxundo⟩ disk = .ok d₁ ∧
    writeTxIndex node block d₁ = .ok d₂ ∧ writeDrivechain node block d₂ = .ok disk'

theorem connectBlock_ok {node : Node} {block : CBlock} {pindex : CBlockIndex}
    {view view' : CCoinsViewCache} {disk disk' : Disk}
    (h : connectBlock node block pindex view disk false = .ok (view',disk'))
    (hgen : isGenesis node block = false) :
    ∃ pprev hash s, BlockConnected node block pindex view disk view' disk' pprev hash s := by
  simp only [connectBlock,bind_ok,require_error_ok] at h
  obtain ⟨_,hcheck,best,hbest,_,rfl,hrest⟩ := h
  rw [if_neg (by simp [hgen])] at hrest
  unfold connectNonGenesis at hrest
  split at hrest
  · cases hrest
  · rename_i pprev hprev
    simp only [Bool.false_eq_true,if_false,bind_ok,pure_ok,CBlockIndex.getBlockHash_ok] at hrest
    obtain ⟨s,hs,d₁,h₁,d₂,h₂,d₃,h₃,hash,hhash,heq⟩ := hrest
    cases heq
    exact ⟨pprev,hash,s,checkBlock_ok hcheck,hprev,hhash,hbest,hs,rfl,d₁,d₂,h₁,h₂,h₃⟩

theorem connectBlock_genesis_ok {node : Node} {block : CBlock} {pindex : CBlockIndex}
    {view view' : CCoinsViewCache} {disk disk' : Disk}
    (h : connectBlock node block pindex view disk false = .ok (view',disk'))
    (hgen : isGenesis node block = true) :
    ∃ hash, pindex.phashBlock = some hash ∧ view' = view.setBestBlock hash ∧ disk' = disk := by
  simp only [connectBlock,bind_ok,require_error_ok] at h
  obtain ⟨_,_,_,_,_,_,hrest⟩ := h
  simp only [if_pos hgen,Bool.false_eq_true,if_false,map_ok,CBlockIndex.getBlockHash_ok] at hrest
  obtain ⟨hash,hhash,heq⟩ := hrest
  cases heq
  exact ⟨hash,hhash,rfl,rfl⟩

theorem connectBlock_drivechain {node : Node} {block : CBlock} {pindex : CBlockIndex}
    {view view' : CCoinsViewCache} {disk disk' : Disk}
    (h : connectBlock node block pindex view disk false = .ok (view',disk'))
    {db : CDrivechainTreeDB} (hdb : disk.pdrivechaintree = some db) : ∃ objs,
      (isGenesis node block = true ∧ objs = [] ∨
        isGenesis node block = false ∧ collectDrivechainObjects block.vtx = .ok objs) ∧
      disk'.pdrivechaintree =
        some (db.writeDrivechainIndex (objs.map fun obj => (obj.getHash,obj))) := by
  cases hgen : isGenesis node block with
  | true =>
    obtain ⟨_,_,_,rfl⟩ := connectBlock_genesis_ok h hgen
    exact ⟨[],.inl ⟨rfl,rfl⟩,hdb⟩
  | false =>
    obtain ⟨_,_,_,hb⟩ := connectBlock_ok h hgen
    obtain ⟨d₁,d₂,h₁,h₂,h₃⟩ := hb.undo
    have hd₂ : d₂.pdrivechaintree = some db :=
      (writeTxIndex_ok h₂).1.trans ((writeUndo_ok h₁).1.trans hdb)
    obtain ⟨objs,hobjs,hw⟩ := (writeDrivechain_ok h₃).2 db hd₂
    exact ⟨objs,.inr ⟨rfl,hobjs⟩,hw⟩

end Sidechain
