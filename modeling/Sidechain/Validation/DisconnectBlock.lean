import Sidechain.Validation.Connected

/-! Disconnecting a block by its undo data, and that this restores the coins from before the block
was connected: the undo records of every transaction are applied to the map its connection left. -/
namespace Sidechain
open Run

/-- `return false` without a verdict. -/
def returnFalse {α : Type} : Outcome α := .error (.rejected {})

/-- The loop from the last transaction to the first. Only the first has no undo data. -/
def disconnectTxs [Crypto] (nHeight : ℕ) (view : CCoinsViewCache) :
    List (CTransaction × Option CTxUndo) → Outcome (CCoinsViewCache × Bool)
  | [] => .ok (view,true)
  | (tx,txundo)::before => do
    let (view,fClean) ← disconnectTxs nHeight view before
    let (view,fMatch) := view.removeOutputs tx nHeight
    match txundo with
    | none => pure (view,fClean && fMatch)
    | some txundo =>
      require (txundo.vprevout.length = tx.vin.length) returnFalse
      let (view,fRestored) := view.restoreInputs (txundo.vprevout.zip (tx.vin.map CTxIn.prevout))
      pure (view,fClean && fMatch && fRestored)

/-- The flag is `fClean`. -/
def disconnectBlock [Crypto] (node : Node) (block : CBlock) (pindex : CBlockIndex)
    (view : CCoinsViewCache) (disk : Disk) : Outcome (CCoinsViewCache × Bool) := do
  let hash ← pindex.getBlockHash
  require (hash = view.getBestBlock)
    (.error (.assertion "pindex->GetBlockHash() == view.GetBestBlock()"))
  match disk.undo pindex with
  | none => returnFalse
  | some blockUndo =>
    match pindex.pprev with
    | none => .error (.undefined "pindex->pprev->GetBlockHash()")
    | some pprev =>
      let hashPrev ← pprev.getBlockHash
      require node.disk.undoReadFromDisk returnFalse
      require (blockUndo.vtxundo.length + 1 = block.vtx.length) returnFalse
      let (view,fClean) ← disconnectTxs pindex.nHeight view
        (block.vtx.zip (none :: blockUndo.vtxundo.map some))
      pure (view.setBestBlock hashPrev,fClean)

section
variable [Crypto]

theorem disconnectBlock_of_undo {node : Node} {block : CBlock} {pindex pprev : CBlockIndex}
    {view w : CCoinsViewCache} {disk : Disk} {blockUndo : CBlockUndo} {hashPrev : Uint256}
    {fClean : Bool} (hhash : pindex.getBlockHash = .ok view.getBestBlock)
    (hundo : disk.undo pindex = some blockUndo) (hprev : pindex.pprev = some pprev)
    (hhashPrev : pprev.getBlockHash = .ok hashPrev) (hread : node.disk.undoReadFromDisk = true)
    (hlen : blockUndo.vtxundo.length + 1 = block.vtx.length)
    (htxs : disconnectTxs pindex.nHeight view
      (block.vtx.zip (none :: blockUndo.vtxundo.map some)) = .ok (w,fClean)) :
    disconnectBlock node block pindex view disk = .ok (w.setBestBlock hashPrev,fClean) := by
  refine bind_ok.mpr ⟨_,hhash,bind_ok.mpr ⟨(),require_error_ok.mpr rfl,?_⟩⟩
  rw [hundo,hprev]
  refine bind_ok.mpr ⟨_,hhashPrev,bind_ok.mpr ⟨(),if_pos hread,bind_ok.mpr ⟨(),if_pos hlen,?_⟩⟩⟩
  exact bind_ok.mpr ⟨_,htxs,rfl⟩

theorem removeOutputs_created {nHeight : ℕ} {tx : CTransaction} {m : Utxo}
    (hfresh : m tx.getHash = fun _ => none) (hc : tx.Checked) {w : CCoinsViewCache} (hw : w.Wf)
    (hmap : w.utxo = Function.update (m.spendAll tx.spends) tx.getHash (CCoins.created tx nHeight)) :
    ∃ w', w.removeOutputs tx nHeight = (w',true) ∧ w'.utxo = m.spendAll tx.spends ∧ w'.Wf ∧
      CCoinsViewCache.Same w w' := by
  have hcreated : w.utxo tx.getHash = CCoins.created tx nHeight := by
    rw [hmap,Function.update_self]
  have hnone : m.spendAll tx.spends tx.getHash = fun _ => none := by
    funext n
    by_contra hn
    obtain ⟨coin,hcoin⟩ := Option.ne_none_iff_exists'.mp hn
    have hm := Utxo.spendAll_le hcoin
    rw [hfresh] at hm
    cases hm
  obtain ⟨w',hrun,hmap',hw',hsame⟩ := hw.removeOutputs (hc.canonical nHeight) hcreated
  refine ⟨w',hrun,?_,hw',hsame⟩
  rw [hmap',hmap,Function.update_idem,← hnone,Function.update_eq_self]

theorem disconnectTx_effect {nHeight : ℕ} {tx : CTransaction} {s s' : ConnectState}
    (h : TxEffect nHeight tx s s') (hfresh : s.view.utxo tx.getHash = fun _ => none)
    (hc : tx.Checked) (hcb : tx.isCoinBase = false)
    (hheights : ∀ {txid n coin}, s.view.utxo txid n = some coin → coin.nHeight ≠ 0)
    {txundo : CTxUndo} (hundo : Utxo.Undoes s.view.utxo tx.spends txundo.vprevout)
    {before : List (CTransaction × Option CTxUndo)} {w₀ w : CCoinsViewCache}
    (hbefore : disconnectTxs nHeight w₀ before = .ok (w,true)) (hw : w.Wf)
    (hmap : w.utxo = s'.view.utxo) : ∃ w',
      disconnectTxs nHeight w₀ ((tx,some txundo)::before) = .ok (w',true) ∧
      w'.utxo = s.view.utxo ∧ w'.Wf ∧ CCoinsViewCache.Same w w' := by
  have hspends : tx.spends = tx.vin.map CTxIn.prevout := by simp [CTransaction.spends,hcb]
  obtain ⟨w₁,hrun₁,hmap₁,hw₁,hsame₁⟩ := removeOutputs_created hfresh hc hw (hmap.trans h.utxo)
  obtain ⟨w₂,hrun₂,hmap₂,hw₂,hsame₂⟩ :=
    hw₁.restoreInputs (CCoinsViewCache.utxo_uniform _) hundo hheights hmap₁
  have hlen : txundo.vprevout.length = tx.vin.length := by
    rw [hundo.length,hspends,List.length_map]
  refine ⟨w₂,?_,hmap₂,hw₂,hsame₁.trans hsame₂⟩
  rw [disconnectTxs,hbefore]
  rw [hspends] at hrun₂
  simp [bind,Except.bind,hrun₁,hrun₂,hlen,require,pure,Except.pure]

/-- What the transactions of a block have to find in the view so that undoing them in order
restores it: no coins under their txids, neither in the view nor hidden behind it. -/
structure Reversible (view : CCoinsViewCache) (vtx : List CTransaction) : Prop where
  wf : view.Wf
  heights : ∀ {txid n coin}, view.utxo txid n = some coin → coin.nHeight ≠ 0
  unspent : ∀ tx ∈ vtx, view.utxo tx.getHash = fun _ => none
  unshadowed : ∀ tx ∈ vtx, tx.isCoinBase = false → view.base.utxo tx.getHash = fun _ => none
  distinct : ∀ tx ∈ vtx, ∀ tx' ∈ vtx, tx.getHash = tx'.getHash → tx = tx'
  checked : ∀ tx ∈ vtx, tx.Checked

/-- The invariant of the loop over the transactions of a block. What was spent stays spent, so
that no transaction can be connected twice. -/
structure ConnectInv (view : CCoinsViewCache) (done : List CTransaction) (s : ConnectState) :
    Prop where
  wf : s.view.Wf
  same : CCoinsViewCache.Same view s.view
  i : s.i = done.length
  heights : ∀ {txid n coin}, s.view.utxo txid n = some coin → coin.nHeight ≠ 0
  kept : ∀ {txid n coin}, txid ∉ done.map CTransaction.getHash →
    s.view.utxo txid n = some coin → view.utxo txid n = some coin
  spent : ∀ tx ∈ done, ∀ o ∈ tx.spends, s.view.utxo o.hash o.n.toNat = none ∧
    (o.hash ∈ done.map CTransaction.getHash ∨ view.utxo o.hash o.n.toNat ≠ none)

section
variable {view : CCoinsViewCache} {vtx : List CTransaction} (hrev : Reversible view vtx)
include hrev

/-- A transaction finds no coins under its txid, and leaves the invariant. -/
theorem ConnectInv.step {nHeight : ℕ} (hheight : nHeight ≠ 0) {done : List CTransaction}
    {s s' : ConnectState} (h : ConnectInv view done s) (hdone : ∀ tx ∈ done, tx ∈ vtx)
    {tx : CTransaction} (htx : tx ∈ vtx) (hspends : tx ∈ done → tx.spends ≠ [])
    (hstep : TxConnected nHeight tx s s') : s.view.utxo tx.getHash = (fun _ => none) ∧
      TxEffect nHeight tx s s' ∧ ConnectInv view (done ++ [tx]) s' := by
  have heff := hstep.effect h.wf (hrev.checked tx htx)
    (fun hcb => by rw [h.same.1]; exact hrev.unshadowed tx htx hcb)
  have hnew : tx ∉ done := by
    intro hmem
    obtain ⟨o,ho⟩ := List.exists_mem_of_ne_nil _ (hspends hmem)
    exact heff.available o ho (h.spent tx hmem o ho).1
  have hhash : tx.getHash ∉ done.map CTransaction.getHash := by
    intro hmem
    obtain ⟨tx',htx',heq⟩ := List.mem_map.mp hmem
    exact hnew (hrev.distinct tx' (hdone tx' htx') tx htx heq ▸ htx')
  have hfresh : s.view.utxo tx.getHash = fun _ => none := by
    funext n
    by_contra hn
    obtain ⟨coin,hcoin⟩ := Option.ne_none_iff_exists'.mp hn
    have hview := h.kept hhash hcoin
    rw [hrev.unspent tx htx] at hview
    cases hview
  -- an outpoint of the map before the transaction is not one of its own outputs
  have hother : ∀ {o : COutPoint}, s.view.utxo o.hash o.n.toNat ≠ none → o.hash ≠ tx.getHash := by
    intro o ho heq
    rw [heq,hfresh] at ho
    exact ho rfl
  refine ⟨hfresh,heff,heff.wf,h.same.trans heff.same,by rw [heff.i,h.i]; simp,?_,?_,?_⟩
  · intro txid n coin hcoin
    rw [heff.utxo] at hcoin
    by_cases ht : txid = tx.getHash
    · subst ht
      rw [Function.update_self] at hcoin
      obtain ⟨_,_,rfl⟩ := Option.map_eq_some_iff.mp hcoin
      exact hheight
    · rw [Function.update_of_ne ht] at hcoin
      exact h.heights (Utxo.spendAll_le hcoin)
  · intro txid n coin ht hcoin
    rw [List.map_append,List.mem_append,not_or] at ht
    rw [heff.utxo,Function.update_of_ne (by simpa using ht.2)] at hcoin
    exact h.kept ht.1 (Utxo.spendAll_le hcoin)
  · intro tx' htx' o ho
    have hmono : o.hash ∈ done.map CTransaction.getHash ∨ view.utxo o.hash o.n.toNat ≠ none →
        o.hash ∈ (done ++ [tx]).map CTransaction.getHash ∨ view.utxo o.hash o.n.toNat ≠ none := by
      rintro (hin | hin)
      · exact .inl (by simp only [List.map_append,List.mem_append]; exact .inl hin)
      · exact .inr hin
    rcases List.mem_append.mp htx' with hold | hself
    · obtain ⟨hnone,hsource⟩ := h.spent tx' hold o ho
      have hne : o.hash ≠ tx.getHash := by
        intro heq
        rcases hsource with hin | hin
        · exact hhash (heq ▸ hin)
        · rw [heq,hrev.unspent tx htx] at hin
          exact hin rfl
      refine ⟨?_,hmono hsource⟩
      rw [heff.utxo,Function.update_of_ne hne]
      by_contra hn
      obtain ⟨coin,hcoin⟩ := Option.ne_none_iff_exists'.mp hn
      rw [Utxo.spendAll_le hcoin] at hnone
      cases hnone
    · obtain rfl : tx' = tx := by simpa using hself
      have havail := heff.available o ho
      refine ⟨?_,hmono ?_⟩
      · rw [heff.utxo,Function.update_of_ne (hother havail),Utxo.spendAll_of_mem ho]
      · by_cases hin : o.hash ∈ done.map CTransaction.getHash
        · exact .inl hin
        · obtain ⟨coin,hcoin⟩ := Option.ne_none_iff_exists'.mp havail
          exact .inr (by rw [h.kept hin hcoin]; simp)

theorem disconnectTxs_run {node : Node} {block : CBlockHeader} {pindex : CBlockIndex}
    (hheight : pindex.nHeight ≠ 0) {rest done : List CTransaction} {s s' : ConnectState}
    (h : ConnectInv view done s) (hne : done ≠ []) (hdone : ∀ tx ∈ done, tx ∈ vtx)
    (hrest : ∀ tx ∈ rest, tx ∈ vtx ∧ tx.isCoinBase = false)
    (hrun : rest.foldlM (connectTx node block pindex) s = .ok s') : ∃ undos : List CTxUndo,
      s'.vtxundo = s.vtxundo ++ undos ∧ undos.length = rest.length ∧ s'.view.Wf ∧
      CCoinsViewCache.Same view s'.view ∧
      ∀ w : CCoinsViewCache, w.Wf → w.utxo = s'.view.utxo → ∃ w',
        disconnectTxs pindex.nHeight w (rest.zip (undos.map some)) = .ok (w',true) ∧
        w'.utxo = s.view.utxo ∧ w'.Wf ∧ CCoinsViewCache.Same w w' := by
  induction rest generalizing done s with
  | nil =>
    obtain rfl := foldlM_nil_ok.mp hrun
    exact ⟨[],by simp,rfl,h.wf,h.same,fun w hw hmap => ⟨w,rfl,hmap,hw,rfl,rfl⟩⟩
  | cons tx rest ih =>
    obtain ⟨m,hstep,hrest_run⟩ := foldlM_cons_ok.mp hrun
    obtain ⟨htx,hcb⟩ := hrest tx (by simp)
    have hc := hrev.checked tx htx
    have hspends : tx.spends ≠ [] := by
      simpa [CTransaction.spends,hcb] using hc.vin_ne_nil
    obtain ⟨hfresh,heff,hinv⟩ := h.step hrev hheight hdone htx (fun _ => hspends)
      (connectTx_ok hstep)
    have hdone' : ∀ tx' ∈ done ++ [tx], tx' ∈ vtx := by
      intro tx' htx'
      rcases List.mem_append.mp htx' with hold | hself
      · exact hdone tx' hold
      · exact List.mem_singleton.mp hself ▸ htx
    obtain ⟨undos,hundos,hlen,hwf,hsame,hback⟩ :=
      ih hinv (by simp) hdone' (fun tx' htx' => hrest tx' (by simp [htx'])) hrest_run
    obtain ⟨txundo,hundo,hm⟩ := heff.undo
    have hpos : s.i > 0 := by
      rw [h.i]
      exact List.length_pos_of_ne_nil hne
    rw [if_pos hpos] at hm
    refine ⟨txundo::undos,by rw [hundos,hm]; simp,by simp [hlen],hwf,hsame,?_⟩
    intro w hw hmap
    obtain ⟨w₁,hrun₁,hmap₁,hw₁,hsame₁⟩ := hback w hw hmap
    obtain ⟨w₂,hrun₂,hmap₂,hw₂,hsame₂⟩ :=
      disconnectTx_effect heff hfresh hc hcb h.heights hundo hrun₁ hw₁ hmap₁
    exact ⟨w₂,hrun₂,hmap₂,hw₂,hsame₁.trans hsame₂⟩

end

/-- A block whose transactions have no coins yet, shown or hidden, as BIP30 demands of those shown,
is disconnected cleanly, and the coins and the best block are those from before. -/
theorem disconnectBlock_connectBlock {node : Node} {block : CBlock} {pindex pprev : CBlockIndex}
    {view view' : CCoinsViewCache} {disk disk' : Disk}
    (hconn : connectBlock node block pindex view disk false = .ok (view',disk'))
    (hgen : isGenesis node block = false) (hprev : pindex.pprev = some pprev)
    (hwf : view.Wf) (hheights : ∀ txid n coin, view.utxo txid n = some coin → coin.nHeight ≠ 0)
    (hfresh : enforceBIP30 node pindex pprev = false →
      ∀ tx ∈ block.vtx, view.utxo tx.getHash = fun _ => none)
    (hhidden : ∀ tx ∈ block.vtx, tx.isCoinBase = false →
      view.base.utxo tx.getHash = fun _ => none)
    (hdistinct : ∀ tx ∈ block.vtx, ∀ tx' ∈ block.vtx, tx.getHash = tx'.getHash → tx = tx')
    (hhash : pindex.phashBlock ≠ some 0)
    (hundo : ∀ s, connectTransactions node block pindex pprev view = .ok s →
      disk'.undo pindex = some ⟨s.vtxundo⟩)
    (hread : node.disk.undoReadFromDisk = true) : ∃ view'',
      disconnectBlock node block pindex view' disk' = .ok (view'',true) ∧
      view''.utxo = view.utxo ∧ view''.getBestBlock = view.getBestBlock := by
  obtain ⟨pprev',hash,s,hb⟩ := connectBlock_ok hconn hgen
  obtain rfl : pprev' = pprev := Option.some.inj (hb.prev.symm.trans hprev)
  obtain ⟨hover,hrun⟩ := connectTransactions_ok hb.txs
  obtain ⟨cb,rest,hvtx,hcb,hrest⟩ := hb.checked.coinbase
  have hnew : ∀ tx ∈ block.vtx, view.utxo tx.getHash = fun _ => none := by
    cases hbip30 : enforceBIP30 node pindex pprev' with
    | true => exact hover hbip30
    | false => exact hfresh hbip30
  have hrev : Reversible view block.vtx :=
    ⟨hwf,fun {_ _ _} hc => hheights _ _ _ hc,hnew,hhidden,hdistinct,hb.checked.txs⟩
  have hheight : pindex.nHeight ≠ 0 := by
    intro hzero
    rw [CBlockIndex.nHeight,List.length_eq_zero_iff] at hzero
    simp [CBlockIndex.pprev,hzero,CBlockIndex.ofPath] at hprev
  have hstart : ConnectInv view [] { view } :=
    ⟨hwf,⟨rfl,rfl⟩,rfl,hrev.heights,fun _ hc => hc,by simp⟩
  rw [hvtx] at hrun
  obtain ⟨m,hstep,hrun⟩ := foldlM_cons_ok.mp hrun
  have hcbmem : cb ∈ block.vtx := by simp [hvtx]
  obtain ⟨hfresh,heff,hinv⟩ := hstart.step hrev hheight (by simp) hcbmem (by simp) (connectTx_ok hstep)
  obtain ⟨undos,hundos,hlen,hsw,hsame,hback⟩ := disconnectTxs_run hrev hheight hinv (by simp)
    (by simpa using hcbmem) (fun tx htx => ⟨by simp [hvtx,htx],hrest tx htx⟩) hrun
  have hm : m.vtxundo = [] := by
    obtain ⟨_,_,hm⟩ := heff.undo
    simpa using hm
  rw [hm,List.nil_append] at hundos
  obtain ⟨w₁,hrun₁,hmap₁,hw₁,hsame₁⟩ := hback view' (hb.view_eq ▸ hsw.setBestBlock hash)
    (by rw [hb.view_eq]; rfl)
  have hspends : cb.spends = [] := by simp [CTransaction.spends,hcb]
  obtain ⟨w₂,hrun₂,hmap₂,hw₂,hsame₂⟩ :=
    removeOutputs_created hfresh (hb.checked.txs cb hcbmem) hw₁ (hmap₁.trans heff.utxo)
  have hback_run : disconnectTxs pindex.nHeight view' (block.vtx.zip (none :: undos.map some)) =
      .ok (w₂,true) := by
    rw [hvtx,List.zip_cons_cons,disconnectTxs,hrun₁]
    simp only [bind,Except.bind,hrun₂]
    rfl
  have hbest : pprev'.getBlockHash = .ok view.getBestBlock := by
    simpa [prevBlockHash,hprev] using hb.best
  have hat : view'.getBestBlock = hash := by
    rw [hb.view_eq]
    exact CCoinsViewCache.getBestBlock_setBestBlock _ fun hzero => hhash (hzero ▸ hb.phashBlock)
  have hread_undo : disk'.undo pindex = some ⟨undos⟩ := by rw [hundo s hb.txs,hundos]
  have hbase : w₂.base = view.base := by
    rw [hsame₂.1,hsame₁.1,hb.view_eq]
    exact hsame.1
  have hlen_vtx : undos.length + 1 = block.vtx.length := by simp [hvtx,hlen]
  exact ⟨w₂.setBestBlock view.getBestBlock,
    disconnectBlock_of_undo (hat ▸ CBlockIndex.getBlockHash_ok.mpr hb.phashBlock) hread_undo hprev
      hbest hread hlen_vtx hback_run,
    hmap₂.trans (by rw [hspends]; rfl),CCoinsViewCache.setBestBlock_getBestBlock hbase⟩

/-- Undo data is read back as written unless the index entry had some before. -/
theorem BlockConnected.undo_read {node : Node} {block : CBlock} {pindex pprev : CBlockIndex}
    {view view' : CCoinsViewCache} {disk disk' : Disk} {hash : Uint256} {s : ConnectState}
    (h : BlockConnected node block pindex view disk view' disk' pprev hash s)
    (hnone : disk.undo pindex = none) : disk'.undo pindex = some ⟨s.vtxundo⟩ := by
  obtain ⟨d₁,d₂,h₁,h₂,h₃⟩ := h.undo
  rw [(writeDrivechain_ok h₃).1,(writeTxIndex_ok h₂).2]
  exact (writeUndo_ok h₁).2 hnone

end

def spendingTx : CTransaction := { vin := [{ prevout := ⟨5,0⟩ }], vout := [⟨4000,[OP_1]⟩] }

def spendingCoinbase : CTransaction :=
  { vin := [{ prevout := .null, scriptSig := pushInt64 2 ++ [OP_0] }], vout := [⟨1000,[OP_1]⟩] }

def spendingTxid : Uint256 := 0xb385343c170cdc0e1c6bf5e3f704dc3d2fd820beb58bb7eb987001981e52b6ba
def coinbaseTxid : Uint256 := 0x5617d02612f5401df1105325a49a8052d8cc046cc3fdb8864f5df48a28f01b59
def spendingPrev : Uint256 := 0x1ccef500def84510549cd184bdeabd00cbc5161ed22d56234c673bb2d3f7ea4a
def spendingHash : Uint256 := 0x230584ad3683dc5977ef3bc6b1fede5f064ac505177c1013a8e80495cefd9104

def spendingBlock : CBlock :=
  regTestBlock spendingPrev 0x257534a0e1952ba50ce7f88f5a35aeb00455dcb0eee7050c3f8bab49de108e56
    1296688604 1 [spendingCoinbase,spendingTx]

@[reducible] def spendingCrypto : Crypto := regTestCrypto
  [(spendingTx.serialize,spendingTxid),(spendingCoinbase.serialize,coinbaseTxid),
    (serializeBits 32 coinbaseTxid ++ serializeBits 32 spendingTxid,spendingBlock.hashMerkleRoot),
    (spendingBlock.toCBlockHeader.serialize,spendingHash)]

def spendingPprev : CBlockIndex :=
  ⟨some spendingPrev,0x20000000,1296688603,[⟨regTestParams.hashGenesisBlock,1,1296688602⟩]⟩

def spendingIndex : CBlockIndex :=
  spendingPprev.child spendingPrev spendingBlock.toCBlockHeader (some spendingHash)

def spendingNode (consensus : Params) : Node :=
  { regTestNode with
    consensus, mapBlockIndex := fun hash => if hash = spendingPrev then some 1 else none }

/-- Some coins on disk, under a cache. -/
def diskView (coins : List (Uint256 × CCoins))
    (cacheCoins : Uint256 → Option CCoinsCacheEntry := fun _ => none) : CCoinsViewCache :=
  { base := { getCoins := fun txid => (coins.find? (·.1 = txid)).map Prod.snd
              getBestBlock := spendingPrev }
    cacheCoins }

theorem diskView_base {coins : List (Uint256 × CCoins)} {txid : Uint256} {c : CCoins}
    (h : (diskView coins).base.getCoins txid = some c) : (txid,c) ∈ coins := by
  obtain ⟨e,he,rfl⟩ := Option.map_eq_some_iff.mp h
  have hkey : e.1 = txid := by simpa using List.find?_some he
  exact hkey ▸ List.mem_of_find?_eq_some he

theorem diskView_wf {coins : List (Uint256 × CCoins)} (h : ∀ e ∈ coins, e.2.Canonical) :
    (diskView coins).Wf := by
  refine ⟨?_,fun txid c hc => h _ (diskView_base hc),?_⟩
  · intro _ _ he
    cases he
  · intro _ _ he
    cases he

theorem diskView_coin {coins : List (Uint256 × CCoins)} {txid : Uint256} {n : ℕ} {coin : Coin}
    (h : (diskView coins).utxo txid n = some coin) :
    ∃ c, (txid,c) ∈ coins ∧ c.coinAt n = some coin := by
  unfold CCoinsViewCache.utxo at h
  cases hc : (diskView coins).getCoins txid with
  | none => simp [hc] at h
  | some c =>
    rw [hc] at h
    exact ⟨c,diskView_base hc,h⟩

def spendableCoins (nValue : CAmount) (nHeight : ℕ) : CCoins :=
  { vout := [⟨nValue,[OP_1]⟩], nHeight, nVersion := 1 }

/-- Connect and disconnect the block. -/
def spendAndUndo (node : Node) (view : CCoinsViewCache) : Outcome (CCoinsViewCache × Bool) :=
  letI := spendingCrypto
  connectBlock node spendingBlock spendingIndex view {} false >>= fun r =>
    disconnectBlock node spendingBlock spendingIndex r.1 r.2

/-- Past BIP34, with coins of an equal coinbase in the view. -/
def overwrittenView : CCoinsViewCache :=
  diskView [(5,spendableCoins 5000 1),(coinbaseTxid,{ spendableCoins 1000 1 with fCoinBase := true })]

def bip34Params : Params := { regTestParams with BIP34Height := 1, BIP34Hash := spendingPrev }

/-- The cache has disconnected the second transaction, but its coins are still on disk. -/
def hiddenView : CCoinsViewCache :=
  diskView [(5,spendableCoins 5000 1),(spendingTxid,spendableCoins 4000 2)] fun txid =>
    if txid = spendingTxid then some ⟨{},true,false⟩ else none

/-- Coins that a coinbase overwrote are not restored, and hidden coins come to light. -/
theorem undone_coins_differ :
    (∃ view, spendAndUndo (spendingNode bip34Params) overwrittenView = .ok (view,true) ∧
      overwrittenView.utxo coinbaseTxid 0 ≠ none ∧ view.utxo coinbaseTxid 0 = none) ∧
    (∃ view, spendAndUndo (spendingNode regTestParams) hiddenView = .ok (view,true) ∧
      hiddenView.utxo spendingTxid 0 = none ∧ view.utxo spendingTxid 0 ≠ none) := by
  have hover : (fun r => (r.2,r.1.utxo coinbaseTxid 0)) <$>
      spendAndUndo (spendingNode bip34Params) overwrittenView = .ok (true,none) := by decide +kernel
  have hhidden : (fun r => (r.2,r.1.utxo spendingTxid 0 != none)) <$>
      spendAndUndo (spendingNode regTestParams) hiddenView = .ok (true,true) := by decide +kernel
  obtain ⟨⟨view,fClean⟩,hrun,hcoin⟩ := Run.map_ok.mp hover
  obtain ⟨⟨view',fClean'⟩,hrun',hcoin'⟩ := Run.map_ok.mp hhidden
  rw [Prod.mk.injEq] at hcoin hcoin'
  obtain ⟨rfl,hnone⟩ := hcoin
  obtain ⟨rfl,hsome⟩ := hcoin'
  exact ⟨⟨view,hrun,by decide +kernel,hnone⟩,view',hrun',by decide +kernel,by simpa using hsome⟩

/-- Over a disk with the spent coin only, the block is undone. -/
theorem spendingBlock_undone :
    letI := spendingCrypto
    ∃ view' disk' view'',
      connectBlock (spendingNode regTestParams) spendingBlock spendingIndex
        (diskView [(5,spendableCoins 5000 1)]) {} false = .ok (view',disk') ∧
      disconnectBlock (spendingNode regTestParams) spendingBlock spendingIndex view' disk' =
        .ok (view'',true) ∧
      view''.utxo = (diskView [(5,spendableCoins 5000 1)]).utxo := by
  let := spendingCrypto
  obtain ⟨⟨view',disk'⟩,hconn⟩ := Run.isOk_iff.mp (by decide +kernel :
    (connectBlock (spendingNode regTestParams) spendingBlock spendingIndex
      (diskView [(5,spendableCoins 5000 1)]) {} false).isOk = true)
  have hgen : isGenesis (spendingNode regTestParams) spendingBlock = false := by decide +kernel
  obtain ⟨pprev,hash,s,hb⟩ := connectBlock_ok hconn hgen
  have hwf : (diskView [(5,spendableCoins 5000 1)]).Wf := by
    refine diskView_wf fun e he => ?_
    rw [List.mem_singleton.mp he]
    intro out hout hnull
    rw [List.mem_singleton.mp hout] at hnull
    cases hnull
  have hheights : ∀ txid n coin, (diskView [(5,spendableCoins 5000 1)]).utxo txid n = some coin →
      coin.nHeight ≠ 0 := by
    intro txid n coin hcoin
    obtain ⟨c,hmem,hat⟩ := diskView_coin hcoin
    obtain ⟨_,_,rfl⟩ := CCoins.coinAt_eq_some.mp hat
    cases List.mem_singleton.mp hmem
    exact Nat.one_ne_zero
  have hnew : ∀ tx ∈ spendingBlock.vtx,
      (diskView [(5,spendableCoins 5000 1)]).base.getCoins tx.getHash = none := by decide +kernel
  obtain ⟨view'',hdisc,hutxo,_⟩ := disconnectBlock_connectBlock hconn hgen hb.prev hwf hheights
    (fun hoff => by
      rw [show pprev = spendingPprev from Option.some.inj hb.prev.symm] at hoff
      exact absurd hoff (by decide +kernel))
    (fun tx htx _ => by simp only [CCoinsView.utxo,hnew tx htx]) (by decide +kernel)
    (by decide +kernel)
    (fun s' hs' => by
      rw [hb.txs] at hs'
      cases hs'
      exact hb.undo_read rfl) rfl
  exact ⟨view',disk',view'',hconn,hdisc,hutxo⟩

end Sidechain
