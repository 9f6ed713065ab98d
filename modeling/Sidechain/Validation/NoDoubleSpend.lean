import Sidechain.Library.Ledger
import Sidechain.Validation.ChainRun

/-! Chains of connected blocks as a ledger: every input spends an output of a transaction before
it, and no output is spent twice. -/
namespace Sidechain

/-- The transaction and the position an outpoint names. -/
def COutPoint.place (o : COutPoint) : Uint256 × ℕ := (o.hash,o.n.toNat)

theorem COutPoint.place_injective : Function.Injective COutPoint.place := by
  intro o p h
  obtain ⟨hhash,hn⟩ := Prod.mk.inj h
  cases o
  cases p
  rw [COutPoint.mk.injEq]
  exact ⟨hhash,UInt32.toNat_inj.mp hn⟩

theorem Utxo.spendAll_ne_none {m : Utxo} {os : List COutPoint} {txid : Uint256} {n : ℕ} :
    m.spendAll os txid n ≠ none ↔ m txid n ≠ none ∧ (txid,n) ∉ os.map COutPoint.place := by
  induction os generalizing m with
  | nil => simp [Utxo.spendAll]
  | cons o os ih =>
    rw [Utxo.spendAll,ih,List.map_cons,List.mem_cons,not_or,← and_assoc]
    refine and_congr_left' ?_
    unfold Utxo.spend COutPoint.place
    by_cases htxid : txid = o.hash
    · subst htxid
      by_cases hn : n = o.n.toNat
      · simp [hn]
      · simp [hn]
    · simp [htxid]

section
variable [Crypto]

/-- Transactions as entries of a ledger. Unspendable outputs are never created. -/
def txLedger : Ledger CTransaction Uint256 where
  id := CTransaction.getHash
  spends tx := tx.spends.map COutPoint.place
  creates tx n := CCoins.created tx 0 n ≠ none

theorem created_ne_none {tx : CTransaction} (nHeight : ℕ) {n : ℕ} :
    CCoins.created tx nHeight n ≠ none ↔ txLedger.creates tx n := by
  simp [txLedger,CCoins.created]

/-- The calls that connect one block after another to the view they leave, from the genesis block
and the empty view on. The last block comes first; the output of genesis is not in the view. -/
inductive ConnectRun (consensus : Params) : List CBlock → CCoinsViewCache → Disk → Prop
  | genesis {view' disk'} (node : Node) (block : CBlock) (pindex : CBlockIndex) (disk : Disk)
      (hnode : node.consensus = consensus) (hgen : isGenesis node block = true)
      (h : connectBlock node block pindex {} disk false = .ok (view',disk')) :
      ConnectRun consensus [] view' disk'
  | connect {blocks view disk view' disk'} (node : Node) (block : CBlock) (pindex : CBlockIndex)
      (run : ConnectRun consensus blocks view disk) (hnode : node.consensus = consensus)
      (hgen : isGenesis node block = false)
      (h : connectBlock node block pindex view disk false = .ok (view',disk')) :
      ConnectRun consensus (block::blocks) view' disk'

/-- The transactions of a chain, the last one first. -/
def chainTxs (blocks : List CBlock) : List CTransaction := blocks.flatMap fun b => b.vtx.reverse

/-- The view shows what the ledger of the transactions has available. -/
structure Accounted (txs : List CTransaction) (view : CCoinsViewCache) : Prop where
  wf : view.Wf
  base : view.base = {}
  valid : txLedger.Valid txs fun txid n => view.utxo txid n ≠ none

theorem Accounted.base_utxo {txs : List CTransaction} {view : CCoinsViewCache}
    (h : Accounted txs view) (txid : Uint256) : view.base.utxo txid = fun _ => none := by
  rw [h.base]
  rfl

theorem Accounted.step {txs : List CTransaction} {nHeight : ℕ} {tx : CTransaction}
    {s s' : ConnectState} (h : Accounted txs s.view) (hc : tx.Checked)
    (hconnect : TxConnected nHeight tx s s') : Accounted (tx::txs) s'.view := by
  have heff := hconnect.effect h.wf hc fun _ => h.base_utxo _
  refine ⟨heff.wf,heff.same.1.trans h.base,?_⟩
  have hafter : (fun txid n => s'.view.utxo txid n ≠ none) =
      txLedger.after (fun txid n => s.view.utxo txid n ≠ none) tx := by
    funext txid n
    rw [heff.utxo,Ledger.after]
    by_cases htxid : txid = tx.getHash
    · subst htxid
      rw [Function.update_self,created_ne_none]
      exact (if_pos rfl).symm
    · rw [Function.update_of_ne htxid,Utxo.spendAll_ne_none]
      exact (if_neg htxid).symm
  rw [hafter]
  refine h.valid.cons tx (hc.spends_nodup.map COutPoint.place_injective) fun p hp => ?_
  obtain ⟨o,ho,rfl⟩ := List.mem_map.mp hp
  exact heff.available o ho

theorem Accounted.run {txs vtx : List CTransaction} {node : Node} {block : CBlockHeader}
    {pindex : CBlockIndex} {s s' : ConnectState} (h : Accounted txs s.view)
    (hc : ∀ tx ∈ vtx, tx.Checked) (hrun : vtx.foldlM (connectTx node block pindex) s = .ok s') :
    Accounted (vtx.reverse ++ txs) s'.view := by
  induction vtx generalizing txs s with
  | nil =>
    obtain rfl := Run.foldlM_nil_ok.mp hrun
    exact h
  | cons tx vtx ih =>
    obtain ⟨m,hm,hrest⟩ := Run.foldlM_cons_ok.mp hrun
    obtain ⟨htx,hvtx⟩ := List.forall_mem_cons.mp hc
    have hnext := ih (h.step htx (connectTx_ok hm)) hvtx hrest
    simpa using hnext

theorem accounted_empty (hash : Uint256) : Accounted [] { hashBlock := hash } := by
  refine ⟨⟨?_,?_,?_⟩,rfl,?_⟩
  · intro _ _ h
    cases h
  · intro _ _ h
    cases h
  · intro _ _ h
    cases h
  · have hnone : (fun txid n => ({ hashBlock := hash } : CCoinsViewCache).utxo txid n ≠ none) =
        fun _ _ => False := by
      funext txid n
      exact eq_false (not_not.mpr rfl)
    rw [hnone]
    exact .nil

variable {consensus : Params} {blocks : List CBlock} {view : CCoinsViewCache} {disk : Disk}

theorem ConnectRun.accounted (hrun : ConnectRun consensus blocks view disk) :
    Accounted (chainTxs blocks) view := by
  induction hrun with
  | genesis node block pindex disk hnode hgen h =>
    obtain ⟨hash,_,rfl,_⟩ := connectBlock_genesis_ok h hgen
    exact accounted_empty hash
  | connect node block pindex run hnode hgen h ih =>
    obtain ⟨pprev,hash,s,hb⟩ := connectBlock_ok h hgen
    have hnext := ih.run hb.checked.txs (connectTransactions_ok hb.txs).2
    rw [hb.view_eq]
    exact ⟨hnext.wf.setBestBlock hash,hnext.base,hnext.valid⟩

/-- In whatever block is tried next, the coins of every transaction can be updated once its inputs
have passed the checks. -/
theorem Accounted.updateCoins {txs : List CTransaction} {view : CCoinsViewCache}
    (h : Accounted txs view) {node : Node} {block : CBlock} (hc : block.Checked)
    {pindex : CBlockIndex} {done rest : List CTransaction} {tx : CTransaction}
    (hvtx : block.vtx = done ++ tx::rest) {s s' : ConnectState} {nSigOps : ℕ}
    (hdone : done.foldlM (connectTx node block.toCBlockHeader pindex) { view } = .ok s)
    (hinputs : connectInputs node block.toCBlockHeader pindex { s with nSigOps } tx = .ok s') :
    ∃ r, s'.view.updateCoins tx pindex.nHeight = .ok r := by
  have hall : ∀ t ∈ done ++ tx::rest, t.Checked := hvtx ▸ hc.txs
  have hs := h.run (fun t ht => hall t (List.mem_append_left _ ht)) hdone
  have htx : tx.Checked := hall tx (List.mem_append_right _ List.mem_cons_self)
  obtain ⟨hhave,hview,_⟩ := connectInputs_ok hinputs
  have havail : ∀ o ∈ tx.spends, s.view.utxo o.hash o.n.toNat ≠ none := by
    cases hcb : tx.isCoinBase with
    | true => simp [CTransaction.spends,hcb]
    | false => exact CCoinsViewCache.haveInputs_iff.mp (hhave hcb)
  obtain ⟨v,undo,hrun,_⟩ := hs.wf.updateCoins htx.spends_nodup havail (fun _ => hs.base_utxo _)
    (htx.canonical pindex.nHeight)
  exact ⟨_,hview ▸ hrun⟩

/-- No double spend. Every transaction spends outputs of transactions before it; no output is
spent by two inputs, and no outpoint either where all txids differ; and whatever block is tried
next, updating the coins of its transactions does not fail. -/
theorem ConnectRun.noDoubleSpend (hrun : ConnectRun consensus blocks view disk) :
    (∀ later tx before, chainTxs blocks = later ++ tx::before → ∀ o ∈ tx.spends,
      ∃ source ∈ before, source.getHash = o.hash ∧ ∃ out, source.vout[o.n.toNat]? = some out) ∧
    (txLedger.spent (chainTxs blocks)).Nodup ∧
    (((chainTxs blocks).map CTransaction.getHash).Nodup →
      ((chainTxs blocks).flatMap CTransaction.spends).Nodup) ∧
    ∀ (node : Node) (block : CBlock) (pindex : CBlockIndex) (done : List CTransaction)
      (tx : CTransaction) (rest : List CTransaction) (s s' : ConnectState) (nSigOps : ℕ),
      block.Checked → block.vtx = done ++ tx::rest →
      done.foldlM (connectTx node block.toCBlockHeader pindex) { view } = .ok s →
      connectInputs node block.toCBlockHeader pindex { s with nSigOps } tx = .ok s' →
      ∃ r, s'.view.updateCoins tx pindex.nHeight = .ok r := by
  have hacc := hrun.accounted
  refine ⟨?_,hacc.valid.inv.nodup,?_,fun _ _ _ _ _ _ _ _ _ hc hvtx hdone hinputs =>
    hacc.updateCoins hc hvtx hdone hinputs⟩
  · intro later tx before hsplit o ho
    have hvalid := hacc.valid
    rw [hsplit] at hvalid
    obtain ⟨source,hmem,hid,hcreates⟩ := hvalid.created_before (List.mem_map_of_mem ho)
    obtain ⟨coin,hcoin⟩ := Option.ne_none_iff_exists'.mp hcreates
    exact ⟨source,hmem,hid,_,(CCoins.created_eq_some hcoin).1⟩
  · intro hdistinct
    have hnodup := hacc.valid.spends_nodup hdistinct
    have hmap : (chainTxs blocks).flatMap txLedger.spends =
        ((chainTxs blocks).flatMap CTransaction.spends).map COutPoint.place := by
      rw [List.map_flatMap]
      rfl
    rw [hmap] at hnodup
    exact hnodup.of_map _

theorem ConnectRun.foldlM_connect {node : Node} {next : List CBlock} {tip tip' : Tip}
    (hrun : ConnectRun node.consensus blocks tip.view tip.disk)
    (hgen : ∀ block ∈ next, isGenesis node block = false)
    (h : next.foldlM (Tip.connect node) tip = .ok tip') :
    ConnectRun node.consensus (next.reverse ++ blocks) tip'.view tip'.disk := by
  induction next generalizing blocks tip with
  | nil =>
    obtain rfl := Run.foldlM_nil_ok.mp h
    exact hrun
  | cons block next ih =>
    obtain ⟨m,hm,hrest⟩ := Run.foldlM_cons_ok.mp h
    obtain ⟨_,_,hm⟩ := Run.bind_ok.mp hm
    obtain ⟨⟨view,disk⟩,hconnect,hm⟩ := Run.bind_ok.mp hm
    obtain rfl := Run.pure_ok.mp hm
    obtain ⟨hblock,hnext⟩ := List.forall_mem_cons.mp hgen
    have hlater := ih (hrun.connect node block _ rfl hblock hconnect) hnext hrest
    simpa using hlater

theorem ConnectRun.of_connectChain {node : Node} {genesis : CBlock} {next : List CBlock} {tip : Tip}
    (hgenesis : isGenesis node genesis = true) (hgen : ∀ block ∈ next, isGenesis node block = false)
    (h : connectChain node genesis next = .ok tip) :
    ConnectRun node.consensus next.reverse tip.view tip.disk := by
  obtain ⟨⟨view,disk⟩,hconnect,hrest⟩ := Run.bind_ok.mp h
  have hstart : ConnectRun node.consensus [] view disk :=
    .genesis node genesis _ {} rfl hgenesis hconnect
  simpa using hstart.foldlM_connect hgen hrest

end

/-- Spends the coinbase at height 3. -/
def maturedSpend : CTransaction :=
  { vin := [{ prevout := ⟨1003,0⟩, scriptSig := [OP_1] }], vout := [⟨0,[]⟩], nLockTime := 5000 }

/-- Spends that and the coinbase at height 4. -/
def joiningSpend : CTransaction :=
  { vin := [{ prevout := ⟨5000,0⟩, scriptSig := [OP_1] },{ prevout := ⟨1004,0⟩, scriptSig := [OP_1] }]
    vout := [⟨0,[]⟩], nLockTime := 5001 }

/-- The block at height 104. -/
def maturedBlock : CBlock :=
  { heightBlock 104 with vtx := [heightCoinbase 104,maturedSpend,joiningSpend], hashMerkleRoot := 0 }

/-- Height 104 is the first at which the coinbase at height 4 may be spent. -/
theorem maturedBlock_noDoubleSpend :
    letI := tailCrypto
    let txs := chainTxs (maturedBlock::(heightBlocks 104).tail.reverse)
    (∃ source ∈ txs.drop 2, source.getHash = 1003 ∧ ∃ out, source.vout[0]? = some out) ∧
      (txLedger.spent txs).Nodup ∧ (txs.flatMap CTransaction.spends).Nodup ∧
      txs.flatMap CTransaction.spends = [⟨5000,0⟩,⟨1004,0⟩,⟨1003,0⟩] := by
  let := tailCrypto
  intro txs
  let node : Node := { heightNode with mapBlockIndex := fun hash => some (hash.toNat - 1) }
  obtain ⟨tip,hchain⟩ := Run.isOk_iff.mp (by decide +kernel :
    (connectChain node (heightBlock 0) ((heightBlocks 104).tail ++ [maturedBlock])).isOk = true)
  have hrun := ConnectRun.of_connectChain (by decide +kernel) (by decide +kernel) hchain
  rw [List.reverse_append] at hrun
  obtain ⟨hsource,hspent,hdistinct,_⟩ := hrun.noDoubleSpend
  have hsplit : txs = [joiningSpend] ++ maturedSpend::txs.drop 2 := rfl
  exact ⟨hsource _ _ _ hsplit ⟨1003,0⟩ (by decide),hspent,hdistinct (by decide +kernel),
    by decide +kernel⟩

end Sidechain
