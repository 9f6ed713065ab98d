import Sidechain.Coins.StackRun
import Sidechain.Validation.DisconnectBlock

/-! A block connected on a cache over any stack of caches, and what flushing leaves of it: the
plain update of the map of unspent coins, transaction by transaction. -/
namespace Sidechain

/-- The map of coins without a cache: remove what is spent, add what can be spent. -/
def Utxo.applyTx [Crypto] (nHeight : ℕ) (m : Utxo) (tx : CTransaction) : Utxo := fun txid n =>
  match if txid = tx.getHash then CCoins.created tx nHeight n else none with
  | some coin => some coin
  | none => m.spendAll tx.spends txid n

/-- The same where outputs replace all that was left under their txid. -/
def Utxo.replaceTx [Crypto] (nHeight : ℕ) (m : Utxo) (tx : CTransaction) : Utxo :=
  Function.update (m.spendAll tx.spends) tx.getHash (CCoins.created tx nHeight)

namespace CCoinsView

theorem utxo_eq_shown (v : CCoinsView) (txid : Uint256) : v.utxo txid = (v.shown txid).coinAt := by
  unfold utxo shown
  cases v.getCoins txid with
  | some c => rfl
  | none => exact CCoins.coinAt_empty.symm

theorem shown_isPruned_iff {v : CCoinsView} {txid : Uint256} :
    (v.shown txid).isPruned = true ↔ v.utxo txid = fun _ => none := by
  rw [CCoins.isPruned_iff,utxo_eq_shown]

theorem Eqv.utxo {v w : CCoinsView} (h : v.Eqv w) : v.utxo = w.utxo := by
  funext txid
  rw [utxo_eq_shown,utxo_eq_shown]
  exact CCoins.coinAt_of_eqv (h txid)

end CCoinsView

namespace CCoinsViewCache

/-- The flags of the cache are right about its base. -/
def Kept (v : CCoinsViewCache) : Prop := v.level.Good v.base

@[simp] theorem view_utxo (v : CCoinsViewCache) : v.view.utxo = v.utxo := rfl

theorem kept_closeModifier {v : CCoinsViewCache} (hv : v.Kept) {txid : Uint256}
    {e : CCoinsCacheEntry} (hdirty : e.dirty = true)
    (hfresh : e.fresh = true → v.base.utxo txid = fun _ => none) : (v.closeModifier txid e).Kept :=
  CacheLevel.Good.closeModifier hv hdirty fun hf => CCoinsView.shown_isPruned_iff.mpr (hfresh hf)

theorem Kept.modifyCoins_fresh {v : CCoinsViewCache} (hv : v.Kept) {txid : Uint256}
    (hf : (v.modifyCoins txid).fresh = true) : v.base.utxo txid = fun _ => none :=
  CCoinsView.shown_isPruned_iff.mp (CacheLevel.Good.modifyCoins_fresh hv hf)

theorem kept_spendInvariant : SpendInvariant Kept where
  fresh hv hf := hv.modifyCoins_fresh hf
  spent {v} hv o := kept_closeModifier hv (CacheLevel.modifyCoins_dirty v o.hash)
    fun hf => hv.modifyCoins_fresh hf

theorem Kept.addOutputs [Crypto] {v : CCoinsViewCache} (hv : v.Kept) {tx : CTransaction}
    (nHeight : ℕ) (hfresh : v.base.utxo tx.getHash = fun _ => none) :
    (v.addOutputs tx nHeight).Kept := by
  refine kept_closeModifier hv ?_ fun _ => hfresh
  cases tx.isCoinBase with
  | true => exact CacheLevel.modifyCoins_dirty v tx.getHash
  | false => rfl

end CCoinsViewCache

section
variable [Crypto]

/-- Connecting a transaction keeps the flags right and updates the map. -/
theorem TxConnected.kept {nHeight : ℕ} {tx : CTransaction} {s s' : ConnectState}
    (h : TxConnected nHeight tx s s') (hv : s.view.Kept) (hc : tx.Checked)
    (hbase : s.view.base.utxo tx.getHash = fun _ => none) :
    (∀ o ∈ tx.spends, s.view.utxo o.hash o.n.toNat ≠ none) ∧
      s'.view.utxo = Utxo.replaceTx nHeight s.view.utxo tx ∧ s'.view.Kept ∧
      s'.view.base = s.view.base := by
  have havail : ∀ o ∈ tx.spends, s.view.utxo o.hash o.n.toNat ≠ none := by
    cases hcb : tx.isCoinBase with
    | true => simp [CTransaction.spends,hcb]
    | false => exact CCoinsViewCache.haveInputs_iff.mp (h.haveInputs hcb)
  obtain ⟨v,undo,hrun,hmap,_,hkept,hsame⟩ := CCoinsViewCache.kept_spendInvariant.updateCoins hv
    hc.spends_nodup havail (fun _ => hbase)
    fun v' hv' hb => hv'.addOutputs nHeight (hb ▸ hbase)
  obtain ⟨txundo,hup,_⟩ := h.updated
  rw [hup] at hrun
  cases hrun
  exact ⟨havail,hmap,hkept,hsame.1⟩

/-- The map while transactions are connected, each of whose inputs is there. -/
inductive MapRun (nHeight : ℕ) (m : Utxo) : List CTransaction → Utxo → Prop
  | nil : MapRun nHeight m [] m
  | snoc {done m'} (tx : CTransaction) (run : MapRun nHeight m done m')
      (available : ∀ o ∈ tx.spends, m' o.hash o.n.toNat ≠ none) :
      MapRun nHeight m (done ++ [tx]) (m'.replaceTx nHeight tx)

variable {nHeight : ℕ} {m m' : Utxo} {done : List CTransaction}

theorem MapRun.eq_foldl (h : MapRun nHeight m done m') :
    m' = done.foldl (Utxo.replaceTx nHeight) m := by
  induction h with
  | nil => rfl
  | snoc tx run available ih => rw [List.foldl_append,← ih]; rfl

theorem MapRun.source (h : MapRun nHeight m done m') {txid : Uint256} {n : ℕ}
    (hn : m' txid n ≠ none) : txid ∈ done.map CTransaction.getHash ∨ m txid n ≠ none := by
  induction h with
  | nil => exact .inr hn
  | snoc tx run available ih =>
    rw [List.map_append,List.mem_append]
    by_cases htxid : txid = tx.getHash
    · exact .inl (.inr (by simp [htxid]))
    · rw [Utxo.replaceTx,Function.update_of_ne htxid] at hn
      obtain ⟨coin,hcoin⟩ := Option.ne_none_iff_exists'.mp hn
      have hbefore := Utxo.spendAll_le hcoin
      exact (ih (by simp [hbefore])).imp_left Or.inl

/-- Where the txids were free before and different transactions have different txids, no
transaction is there twice, because its inputs cannot be there twice. -/
theorem MapRun.nodup {cb : CTransaction} {rest : List CTransaction}
    (h : MapRun nHeight m done m') (hpre : done <+: cb::rest)
    (hrest : ∀ tx ∈ rest, tx.spends ≠ [])
    (hfree : ∀ tx ∈ cb::rest, m tx.getHash = fun _ => none)
    (hhash : ∀ tx ∈ cb::rest, ∀ tx' ∈ cb::rest, tx.getHash = tx'.getHash → tx = tx') :
    (done.map CTransaction.getHash).Nodup ∧
      ∀ tx ∈ done, ∀ o ∈ tx.spends, m' o.hash o.n.toNat = none ∧
        (o.hash ∈ done.map CTransaction.getHash ∨ m o.hash o.n.toNat ≠ none) := by
  induction h with
  | nil => exact ⟨List.nodup_nil,by simp⟩
  | @snoc done m' tx run available ih =>
    obtain ⟨hnodup,hspent⟩ := ih ((List.prefix_append done [tx]).trans hpre)
    have hmem : ∀ t ∈ done ++ [tx], t ∈ cb::rest := fun t ht => hpre.subset ht
    have htx := hmem tx (by simp)
    have hnew : tx.getHash ∉ done.map CTransaction.getHash := by
      intro hold
      obtain ⟨p,hp,hpt⟩ := List.mem_map.mp hold
      obtain rfl : p = tx := hhash p (hmem p (List.mem_append_left _ hp)) tx htx hpt
      -- only the first transaction may have nothing to spend, and this one is not the first
      have hspends : p.spends ≠ [] := by
        obtain ⟨front,back,rfl⟩ := List.append_of_mem hp
        obtain ⟨after,hafter⟩ := hpre
        cases front with
        | nil =>
          rw [List.nil_append,List.cons_append,List.cons_append,List.cons_eq_cons] at hafter
          exact hrest p (hafter.2 ▸ by simp)
        | cons f front =>
          rw [List.cons_append,List.cons_append,List.cons_append,List.cons_eq_cons] at hafter
          exact hrest p (hafter.2 ▸ by simp)
      obtain ⟨o,ho⟩ := List.exists_mem_of_ne_nil _ hspends
      exact available o ho (hspent p hp o ho).1
    have hknown : ∀ o : COutPoint, (o.hash ∈ done.map CTransaction.getHash ∨
        m o.hash o.n.toNat ≠ none) → o.hash ≠ tx.getHash := by
      rintro o (hold | hthere) heq
      · exact hnew (heq ▸ hold)
      · exact hthere (by rw [heq,hfree tx htx])
    refine ⟨?_,fun p hp o ho => ?_⟩
    · rw [List.map_append,List.map_singleton,List.nodup_append]
      refine ⟨hnodup,List.nodup_singleton _,fun a ha b hb hab => ?_⟩
      rw [List.mem_singleton.mp hb] at hab
      exact hnew (hab ▸ ha)
    · have hsource : o.hash ∈ done.map CTransaction.getHash ∨ m o.hash o.n.toNat ≠ none := by
        rcases List.mem_append.mp hp with hp | hp
        · exact (hspent p hp o ho).2
        · rw [List.mem_singleton.mp hp] at ho
          exact run.source (available o ho)
      refine ⟨?_,by rw [List.map_append,List.mem_append]; exact hsource.imp_left Or.inl⟩
      rw [Utxo.replaceTx,Function.update_of_ne (hknown o hsource)]
      rcases List.mem_append.mp hp with hp | hp
      · by_cases hos : o ∈ tx.spends
        · exact Utxo.spendAll_of_mem hos
        · rw [Utxo.spendAll_of_not_mem hos]
          exact (hspent p hp o ho).1
      · rw [List.mem_singleton.mp hp] at ho
        exact Utxo.spendAll_of_mem ho

theorem MapRun.eq_foldl_applyTx (h : MapRun nHeight m done m')
    (hfree : ∀ tx ∈ done, m tx.getHash = fun _ => none)
    (hnodup : (done.map CTransaction.getHash).Nodup) :
    m' = done.foldl (Utxo.applyTx nHeight) m := by
  induction h with
  | nil => rfl
  | @snoc done m' tx run available ih =>
    rw [List.map_append,List.map_singleton,List.nodup_append] at hnodup
    rw [List.foldl_append,← ih (fun t ht => hfree t (List.mem_append_left _ ht)) hnodup.1]
    change Utxo.replaceTx nHeight m' tx = Utxo.applyTx nHeight m' tx
    funext txid n
    unfold Utxo.replaceTx Utxo.applyTx
    by_cases htxid : txid = tx.getHash
    · subst htxid
      rw [Function.update_self,if_pos rfl]
      cases hc : CCoins.created tx nHeight n with
      | some coin => rfl
      | none =>
        by_contra hne
        obtain ⟨coin,hcoin⟩ := Option.ne_none_iff_exists'.mp (Ne.symm hne)
        have hthere : m' tx.getHash n ≠ none := by simp [Utxo.spendAll_le hcoin]
        rcases run.source hthere with hold | hold
        · exact hnodup.2.2 _ hold _ (List.mem_singleton_self _) rfl
        · exact hold (by rw [hfree tx (by simp)])
    · rw [Function.update_of_ne htxid,if_neg htxid]

theorem mapRun_of_connect {node : Node} {block : CBlockHeader} {pindex : CBlockIndex}
    {vtx : List CTransaction} {s s' : ConnectState} (hc : ∀ tx ∈ vtx, tx.Checked)
    (hv : s.view.Kept) (hbase : ∀ tx ∈ vtx, s.view.base.utxo tx.getHash = fun _ => none)
    (hrun : vtx.foldlM (connectTx node block pindex) s = .ok s') :
    MapRun pindex.nHeight s.view.utxo vtx s'.view.utxo ∧ s'.view.Kept ∧
      s'.view.base = s.view.base := by
  refine Run.foldlM_induct (fun done rest m => done ++ rest = vtx →
    MapRun pindex.nHeight s.view.utxo done m.view.utxo ∧ m.view.Kept ∧
      m.view.base = s.view.base) ?_ (fun _ => ⟨.nil,hv,rfl⟩) hrun (by simp)
  intro done tx rest m m' ih hstep hsplit
  obtain ⟨hmap,hkept,hsame⟩ := ih (by simpa using hsplit)
  have htx : tx ∈ vtx := hsplit ▸ by simp
  obtain ⟨havail,hutxo,hkept',hsame'⟩ := (connectTx_ok hstep).kept hkept (hc tx htx)
    (hsame ▸ hbase tx htx)
  rw [hutxo]
  exact ⟨hmap.snoc tx havail,hkept',hsame'.trans hsame⟩

end

/-- The top cache holds nothing. -/
def CoinsStack.TopEmpty (s : CoinsStack) : Prop :=
  ∃ l ls, s.levels = l::ls ∧ l.cacheCoins = fun _ => none

theorem CoinsStack.topEmpty_flush_zero {s : CoinsStack} (h : s.levels ≠ []) :
    (s.flush 0).TopEmpty := by
  unfold CoinsStack.flush CoinsStack.TopEmpty
  match hls : s.levels,h with
  | [l],_ => exact ⟨_,_,rfl,rfl⟩
  | l::p::ls,_ => exact ⟨_,_,rfl,rfl⟩

theorem CoinsStack.TopEmpty.flush {s : CoinsStack} (h : s.TopEmpty) (depth : ℕ) :
    (s.flush depth).TopEmpty := by
  obtain ⟨l,ls,hls,hl⟩ := h
  cases depth with
  | zero => exact topEmpty_flush_zero (by simp [hls])
  | succ depth =>
    unfold CoinsStack.flush CoinsStack.TopEmpty
    rw [hls]
    cases ls with
    | nil => exact ⟨_,_,rfl,hl⟩
    | cons p ls => exact ⟨_,_,rfl,hl⟩

theorem CoinsStack.TopEmpty.utxo_tail {s : CoinsStack} (h : s.TopEmpty) :
    (viewOf s.base s.levels.tail).utxo = s.view.utxo := by
  obtain ⟨l,ls,hls,hl⟩ := h
  funext txid
  rw [CCoinsView.utxo_eq_shown,CCoinsView.utxo_eq_shown,CoinsStack.view,hls,List.tail_cons,viewOf,
    CacheLevel.shown_of_none (congrFun hl txid)]

theorem GoodLevels.foldl_flush {s : CoinsStack} (h : GoodLevels s.base s.levels)
    (depths : List ℕ) :
    GoodLevels (depths.foldl CoinsStack.flush s).base (depths.foldl CoinsStack.flush s).levels ∧
      (depths.foldl CoinsStack.flush s).view.utxo = s.view.utxo ∧
      (s.TopEmpty → (depths.foldl CoinsStack.flush s).TopEmpty) := by
  induction depths generalizing s with
  | nil => exact ⟨h,rfl,id⟩
  | cons depth depths ih =>
    have hsame := flushLevels_same depth h
    obtain ⟨hgood,hutxo,htop⟩ := ih (s := s.flush depth) hsame.good
    exact ⟨hgood,hutxo.trans hsame.eqv.utxo.symm,fun ht => htop (ht.flush depth)⟩

theorem CacheLevel.Good.utxo_of_read {base : CCoinsView} {l : CacheLevel} (h : l.Good base)
    (hread : ∀ txid e, l.cacheCoins txid = some e → e.dirty = false) :
    (l.onto base).utxo = base.utxo := by
  funext txid
  rw [← CCoinsViewCache.view_utxo,CCoinsView.utxo_eq_shown,CCoinsView.utxo_eq_shown]
  cases hl : l.cacheCoins txid with
  | none => rw [CacheLevel.shown_of_none hl]
  | some e =>
    rw [CacheLevel.shown_of_entry hl]
    exact CCoins.coinAt_of_eqv (h.unmodified hl (hread txid e hl))

section
variable [Crypto]

theorem connectBlock_transactions {node : Node} {block : CBlock} {pindex pprev : CBlockIndex}
    {view view' : CCoinsViewCache} {disk disk' : Disk} {fJustCheck : Bool}
    (h : connectBlock node block pindex view disk fJustCheck = .ok (view',disk'))
    (hgen : isGenesis node block = false) (hprev : pindex.pprev = some pprev) :
    block.Checked ∧ ∃ s, connectTransactions node block pindex pprev view = .ok s ∧
      view'.cacheCoins = s.view.cacheCoins ∧ view'.base = s.view.base := by
  simp only [connectBlock,Run.bind_ok] at h
  obtain ⟨_,hcheck,_,_,_,_,hrest⟩ := h
  rw [if_neg (by simp [hgen])] at hrest
  simp only [connectNonGenesis,hprev] at hrest
  obtain ⟨s,hs,hrest⟩ := Run.bind_ok.mp hrest
  refine ⟨checkBlock_ok hcheck,s,hs,?_⟩
  split_ifs at hrest with hjust
  · cases hrest
    exact ⟨rfl,rfl⟩
  · simp only [Run.bind_ok,Run.pure_ok] at hrest
    obtain ⟨_,_,_,_,_,_,_,_,heq⟩ := hrest
    cases heq
    exact ⟨rfl,rfl⟩

/-- A block is connected, under the check for overwritten coins, on a cache over any stack. Then
flushing that cache, and whatever else is flushed after it, leaves the map below updated by the
transactions one after another, and at last the database; and if different transactions of the
block have different txids, that is the plain update. -/
theorem connectBlock_flush {node : Node} {block : CBlock} {pindex pprev : CBlockIndex}
    {db : CCoinsViewDB} {l : CacheLevel} {ls : List CacheLevel} {view' : CCoinsViewCache}
    {disk disk' : Disk} {fJustCheck : Bool} (hgood : GoodLevels db (l::ls))
    (hread : ∀ txid e, l.cacheCoins txid = some e → e.dirty = false)
    (h : connectBlock node block pindex (l.onto (viewOf db ls)) disk fJustCheck =
      .ok (view',disk'))
    (hgen : isGenesis node block = false) (hprev : pindex.pprev = some pprev)
    (hbip30 : enforceBIP30 node pindex pprev = true) :
    let m := (viewOf db ls).utxo
    let m' := block.vtx.foldl (Utxo.replaceTx pindex.nHeight) m
    let s : CoinsStack := ⟨db,view'.level::ls⟩
    (∀ depths : List ℕ, (viewOf (depths.foldl CoinsStack.flush (s.flush 0)).base
      (depths.foldl CoinsStack.flush (s.flush 0)).levels.tail).utxo = m') ∧
    (viewOf s.flushAll.base []).utxo = m' ∧
    ((∀ tx ∈ block.vtx, ∀ tx' ∈ block.vtx, tx.getHash = tx'.getHash → tx = tx') →
      m' = block.vtx.foldl (Utxo.applyTx pindex.nHeight) m) := by
  intro m m' s
  obtain ⟨hchecked,s₁,hs,hcache,hbase'⟩ := connectBlock_transactions h hgen hprev
  obtain ⟨hover,hrun⟩ := connectTransactions_ok hs
  have hm : (l.onto (viewOf db ls)).utxo = m := hgood.1.utxo_of_read hread
  have hfree : ∀ tx ∈ block.vtx, m tx.getHash = fun _ => none :=
    fun tx htx => hm ▸ hover hbip30 tx htx
  have hstart : (l.onto (viewOf db ls)).Kept := hgood.1
  obtain ⟨hmap,hkept,hbase⟩ := mapRun_of_connect hchecked.txs (by exact hstart) hfree hrun
  have hmap : MapRun pindex.nHeight m block.vtx s₁.view.utxo := hm ▸ hmap
  have hbase : s₁.view.base = viewOf db ls := hbase
  have hlevel : view'.level.cacheCoins = s₁.view.level.cacheCoins := hcache
  have hgood' : GoodLevels s.base s.levels := by
    refine ⟨?_,hgood.2⟩
    have hk : CacheLevel.Good (viewOf db ls) s₁.view.level := hbase ▸ hkept
    exact ⟨fun he => hk.fresh (hlevel ▸ he),fun he => hk.unmodified (hlevel ▸ he),
      fun he => hk.clean (hlevel ▸ he)⟩
  have hshown : s.view.utxo = m' := by
    rw [show m' = s₁.view.utxo from hmap.eq_foldl.symm]
    funext txid
    have hget : s.view.getCoins txid = s₁.view.getCoins txid := by
      change (view'.level.onto (viewOf db ls)).getCoins txid = _
      unfold CCoinsViewCache.getCoins
      rw [hbase]
      exact congrArg (fun c : CCoinsMap =>
        (⟨viewOf db ls,0,c⟩ : CCoinsViewCache).getCoins txid) hcache
    unfold CCoinsView.utxo CCoinsViewCache.utxo
    rw [hget]
  refine ⟨fun depths => ?_,?_,fun hhash => ?_⟩
  · have hgood₀ := hgood'.foldl_flush [0]
    obtain ⟨_,hutxo,htop⟩ := GoodLevels.foldl_flush hgood₀.1 depths
    have hempty := htop (CoinsStack.topEmpty_flush_zero (List.cons_ne_nil _ _))
    exact (CoinsStack.TopEmpty.utxo_tail hempty).trans (hutxo.trans (hgood₀.2.1.trans hshown))
  · obtain ⟨_,hutxo,_⟩ := hgood'.foldl_flush (List.range s.levels.length)
    refine Eq.trans ?_ (hutxo.trans hshown)
    funext txid
    change (viewOf s.flushAll.base []).utxo txid = s.flushAll.view.utxo txid
    rw [CCoinsView.utxo_eq_shown,CCoinsView.utxo_eq_shown,CoinsStack.view,
      CoinsStack.viewOf_cleared s.flushAll_cleared]
    rfl
  · obtain ⟨cb,rest,hvtx,_,hrest⟩ := hchecked.coinbase
    rw [show m' = s₁.view.utxo from hmap.eq_foldl.symm]
    refine hmap.eq_foldl_applyTx hfree (hmap.nodup (hvtx ▸ List.prefix_refl _) ?_ (hvtx ▸ hfree)
      (hvtx ▸ hhash)).1
    intro tx htx
    rw [CTransaction.spends,if_neg (by simp [hrest tx htx])]
    have hvin := (hchecked.txs tx (hvtx ▸ List.mem_cons_of_mem cb htx)).vin_ne_nil
    simpa using hvin

end

/-- Coins to spend, and coins of an older transaction with the txid of the block's second one. -/
def spendingDB : CCoinsViewDB where
  coins txid := if txid = 5 then some (spendableCoins 5000 1)
    else if txid = spendingTxid then some (spendableCoins 4000 1) else none
  hashBestBlock := spendingPrev
  unpruned h := by
    split_ifs at h <;> cases h <;> rfl
  clean h := by
    split_ifs at h <;> cases h <;> rfl

/-- A cache in which that older transaction is fully spent. -/
def respentLevel : CacheLevel where
  cacheCoins txid := if txid = spendingTxid then some ⟨{},true,false⟩ else none

theorem spendingBlock_flushed :
    letI := spendingCrypto
    ∃ view' disk', connectBlock (spendingNode regTestParams) spendingBlock spendingIndex
        (CacheLevel.onto { hashBlock := spendingPrev } (viewOf spendingDB [respentLevel])) {} false =
          .ok (view',disk') ∧
      (viewOf (CoinsStack.flushAll ⟨spendingDB,[view'.level,respentLevel]⟩).base []).utxo 5 0 =
        none := by
  let := spendingCrypto
  obtain ⟨⟨view',disk'⟩,hconn⟩ := Run.isOk_iff.mp (by decide +kernel :
    (connectBlock (spendingNode regTestParams) spendingBlock spendingIndex
      (CacheLevel.onto { hashBlock := spendingPrev } (viewOf spendingDB [respentLevel])) {}
      false).isOk = true)
  have hrespent : respentLevel.Good (viewOf spendingDB []) := by
    refine ⟨fun {txid e} he hf => ?_,fun {txid e} he hd => ?_,fun {txid e} he => ?_⟩
    all_goals
      unfold respentLevel at he
      dsimp only at he
      split_ifs at he
      cases he
    · cases hf
    · cases hd
    · rfl
  have hgood : GoodLevels spendingDB [{ hashBlock := spendingPrev },respentLevel] :=
    ⟨CacheLevel.good_empty spendingPrev,hrespent,trivial⟩
  have hflush := connectBlock_flush hgood nofun hconn (by decide +kernel) rfl (by decide +kernel)
  refine ⟨view',disk',hconn,?_⟩
  rw [hflush.2.1]
  decide +kernel

end Sidechain
