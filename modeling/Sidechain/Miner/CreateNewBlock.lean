import Sidechain.Mempool.PoolLinks
import Sidechain.Miner.Selection
import Sidechain.Miner.WTJoin

/-! Assembling a block: the selected transactions behind a coinbase that takes their fees and does the
bookkeeping of the sidechain, which is added after the selection. -/
namespace Sidechain
open Run Scheduling

/-- What a miner reads. The mainchain client reports `vDeposit` for the next height and answers when a
WT^ is sent to it; `nVersion` is that of `ComputeBlockVersion` or of the option. -/
structure MinerState (Priority : Type) where
  ctx : MinerContext Priority
  mempool : CTxMemPool
  node : Node
  rules : HeaderRules
  tip : CBlockIndex
  state : NodeState
  nVersion : Int32 := 4
  vDeposit : List DrivechainDeposit := []
  sendDrivechainWT : CTransaction → Bool := fun _ => true

structure CBlockTemplate where
  block : CBlock
  vTxFees : List ℤ
  vTxSigOps : List ℕ

/-- Coins for testing, in the block after the seventh. -/
def premine (height : ℕ) : List CTxOut :=
  if height = 7 then [⟨COIN * 7,SIDECHAIN_FEESCRIPT⟩] else []

/-- The object that records a WT^. -/
def joinedObj (wtJoinTX : CTransaction) : DrivechainObj :=
  .joinedWT { sidechainid := SIDECHAIN_ID, wtJoined := wtJoinTX }

/-- The output that records the WT^, if there is one and it has no entry yet. -/
def joinedOutput [Crypto] (pdrivechaintree : Option CDrivechainTreeDB) (wtJoinTX : CTransaction) :
    List CTxOut :=
  if wtJoinTX.vout.isEmpty then []
  else if pdrivechaintree.any fun db => (db.getJoinedWT (joinedObj wtJoinTX).getHash).isSome then []
  else [⟨CENT,(joinedObj wtJoinTX).getScript⟩]

def coinbaseTx (scriptPubKeyIn : CScript) (nHeight : ℕ) (nFees : CAmount)
    (bookkeeping : List CTxOut) : CTransaction :=
  { vin := [{ prevout := .null, scriptSig := pushInt64 nHeight ++ [OP_0] }]
    vout := ⟨nFees,scriptPubKeyIn⟩ :: bookkeeping }

/-- `nTime` as `UpdateTime` leaves it. -/
def updateTime (adjustedTime : ℤ) (pindexPrev : CBlockIndex) : UInt32 :=
  let nOldTime := UInt32.ofInt adjustedTime
  let nNewTime := max (pindexPrev.getMedianTimePast + 1) adjustedTime
  if (nOldTime.toNat : ℤ) < nNewTime then UInt32.ofInt nNewTime else nOldTime

namespace MinerState

variable {Priority : Type} (m : MinerState Priority)

def nHeight : ℕ := m.tip.nHeight + 1

/-- `STANDARD_LOCKTIME_VERIFY_FLAGS` asks for the median time. -/
def selectContext : MinerContext Priority :=
  { m.ctx with nHeight := m.nHeight, nLockTimeCutoff := m.tip.getMedianTimePast }

def header (hashPrevBlock : Uint256) : CBlockHeader :=
  let header : CBlockHeader :=
    { nVersion := m.nVersion, hashPrevBlock, nTime := updateTime m.node.adjustedTime m.tip }
  { header with nBits := m.rules.getNextWorkRequired m.tip header }

variable [Crypto]

/-- The outputs behind the first one. -/
def bookkeeping (wtJoinTX : CTransaction) : List CTxOut :=
  (getDepositTX m.state.disk.pdrivechaintree m.vDeposit).vout ++
    (premine m.tip.nHeight ++ joinedOutput m.state.disk.pdrivechaintree wtJoinTX)

/-- `CreateNewBlock` up to its test of validity. -/
def assembleBlock (scriptPubKeyIn : CScript) : Outcome CBlockTemplate := do
  let wtJoinTX ← getWTJoinTX m.state (UInt32.ofNat m.nHeight)
  match ← m.selectContext.selectTxs m.mempool with
  | none => .error (.undefined "a selection without end")
  | some s => do
    let nFees ← checked s.nFees
    require (wtJoinTX.vout = [] ∨ m.sendDrivechainWT wtJoinTX) (.error (.exception
      "CreateNewBlock: CreateNewBlock failed: failed to broadcast WT^"))
    let txNew := coinbaseTx scriptPubKeyIn m.nHeight nFees (m.bookkeeping wtJoinTX)
    let hashPrevBlock ← m.tip.getBlockHash
    pure { block := { m.header hashPrevBlock with vtx := txNew::s.vtx }
           vTxFees := -s.nFees::s.vTxFees
           vTxSigOps := getLegacySigOpCount txNew::s.vTxSigOps }

/-- The block is given out if it passes the test of validity, without proof of work and merkle root. -/
def createNewBlock (scriptPubKeyIn : CScript) : Outcome CBlockTemplate := do
  let t ← m.assembleBlock scriptPubKeyIn
  let viewNew : CCoinsViewCache :=
    { base := ⟨m.state.pcoinsTip.getCoins,m.state.pcoinsTip.getBestBlock⟩ }
  match testBlockValidity m.rules m.node (some m.tip) viewNew m.state.disk t.block (some m.tip)
      false false with
  | .ok () => pure t
  | .error (.rejected state) => .error (.exception
      ("CreateNewBlock: TestBlockValidity failed: " ++ state.strRejectReason ++ " (code " ++
        toString state.chRejectCode ++ ")"))
  | .error h => .error h

end MinerState

section
variable {Priority : Type} {ctx : MinerContext Priority} {pool : CTxMemPool}

/-- The block so far consists of entries of the pool, with their sums, and is within the limits. -/
structure Tallied (ctx : MinerContext Priority) (pool : CTxMemPool) (s : SelectState Priority)
    (es : List CTxMemPoolEntry) : Prop where
  mem : ∀ e ∈ es, ∃ it, pool.mapTx.lookup it = some e
  vtx : s.vtx = es.map CTxMemPoolEntry.tx
  vTxFees : s.vTxFees = es.map CTxMemPoolEntry.nFee
  vTxSigOps : s.vTxSigOps = es.map CTxMemPoolEntry.sigOpCount
  nFees : s.nFees = (es.map CTxMemPoolEntry.nFee).sum
  nBlockSize : s.nBlockSize = 1000 + (es.map CTxMemPoolEntry.getTxSize).sum
  nBlockSigOps : s.nBlockSigOps = 100 + (es.map CTxMemPoolEntry.sigOpCount).sum
  size_lt : es ≠ [] → s.nBlockSize < ctx.args.nBlockMaxSize
  sigOps_lt : es ≠ [] → s.nBlockSigOps < MAX_BLOCK_SIGOPS

/-- The part of the state that the block is made from. -/
structure SameBlock (s s' : SelectState Priority) : Prop where
  vtx : s'.vtx = s.vtx
  vTxFees : s'.vTxFees = s.vTxFees
  vTxSigOps : s'.vTxSigOps = s.vTxSigOps
  nFees : s'.nFees = s.nFees
  nBlockSize : s'.nBlockSize = s.nBlockSize
  nBlockSigOps : s'.nBlockSigOps = s.nBlockSigOps

theorem SameBlock.refl (s : SelectState Priority) : SameBlock s s := ⟨rfl,rfl,rfl,rfl,rfl,rfl⟩

theorem SameBlock.trans {s s' s'' : SelectState Priority} (h : SameBlock s s')
    (k : SameBlock s' s'') : SameBlock s s'' :=
  ⟨k.vtx.trans h.vtx,k.vTxFees.trans h.vTxFees,k.vTxSigOps.trans h.vTxSigOps,
    k.nFees.trans h.nFees,k.nBlockSize.trans h.nBlockSize,k.nBlockSigOps.trans h.nBlockSigOps⟩

theorem Tallied.same {s s' : SelectState Priority} {es : List CTxMemPoolEntry}
    (h : Tallied ctx pool s es) (k : SameBlock s s') : Tallied ctx pool s' es where
  mem := h.mem
  vtx := k.vtx.trans h.vtx
  vTxFees := k.vTxFees.trans h.vTxFees
  vTxSigOps := k.vTxSigOps.trans h.vTxSigOps
  nFees := k.nFees.trans h.nFees
  nBlockSize := k.nBlockSize.trans h.nBlockSize
  nBlockSigOps := k.nBlockSigOps.trans h.nBlockSigOps
  size_lt hne := k.nBlockSize ▸ h.size_lt hne
  sigOps_lt hne := k.nBlockSigOps ▸ h.sigOps_lt hne

theorem postpone_same (s : SelectState Priority) (iter : Uint256) (priorityTx : Bool) :
    SameBlock s (s.postpone iter priorityTx) := by
  unfold SelectState.postpone
  split_ifs <;> exact ⟨rfl,rfl,rfl,rfl,rfl,rfl⟩

theorem endPriority_same (s : SelectState Priority) (nTxSize : ℕ) :
    SameBlock s (s.endPriority ctx nTxSize) := by
  unfold SelectState.endPriority
  split_ifs <;> exact ⟨rfl,rfl,rfl,rfl,rfl,rfl⟩

theorem release_same (s : SelectState Priority) (child : Uint256) :
    SameBlock s (s.release child) := by
  unfold SelectState.release
  split_ifs
  · split
    · exact .refl s
    · exact ⟨rfl,rfl,rfl,rfl,rfl,rfl⟩
  · exact ⟨rfl,rfl,rfl,rfl,rfl,rfl⟩
  · exact .refl s

theorem foldl_release_same (children : List Uint256) (s : SelectState Priority) :
    SameBlock s (children.foldl SelectState.release s) := by
  induction children generalizing s with
  | nil => exact .refl s
  | cons child children ih => exact (release_same s child).trans (ih _)

theorem pick_same {s : SelectState Priority} {p : Picked Priority}
    (h : ctx.pick pool s = .ok p) : SameBlock s p.s := by
  unfold MinerContext.pick at h
  split at h
  · cases h
    exact ⟨rfl,rfl,rfl,rfl,rfl,rfl⟩
  · split at h <;> cases h <;> exact ⟨rfl,rfl,rfl,rfl,rfl,rfl⟩

theorem Tallied.add {s : SelectState Priority} {es : List CTxMemPoolEntry}
    (h : Tallied ctx pool s es) {iter : Uint256} {e : CTxMemPoolEntry}
    (he : pool.mapTx.lookup iter = some e)
    (hsize : s.nBlockSize + e.getTxSize < ctx.args.nBlockMaxSize)
    (hsigOps : s.nBlockSigOps + e.sigOpCount < MAX_BLOCK_SIGOPS) :
    Tallied ctx pool (s.add iter e) (es ++ [e]) where
  mem e' he' := by
    rcases List.mem_append.mp he' with he' | he'
    · exact h.mem e' he'
    · exact ⟨iter,List.mem_singleton.mp he' ▸ he⟩
  vtx := by simp [SelectState.add,h.vtx]
  vTxFees := by simp [SelectState.add,h.vTxFees]
  vTxSigOps := by simp [SelectState.add,h.vTxSigOps]
  nFees := by simp [SelectState.add,h.nFees]
  nBlockSize := by simp [SelectState.add,h.nBlockSize,Nat.add_assoc]
  nBlockSigOps := by simp [SelectState.add,h.nBlockSigOps,Nat.add_assoc]
  size_lt _ := hsize
  sigOps_lt _ := hsigOps

theorem tryAdd_tallied {s : SelectState Priority} {es : List CTxMemPoolEntry}
    (h : Tallied ctx pool s es) {iter : Uint256} {e : CTxMemPoolEntry} {priorityTx : Bool}
    (he : pool.mapTx.lookup iter = some e) {next : SelectState Priority × Bool}
    (hnext : ctx.tryAdd pool iter e priorityTx s = .ok next) :
    ∃ es', Tallied ctx pool next.1 es' := by
  have hend := h.same (@endPriority_same _ ctx s e.getTxSize)
  unfold MinerContext.tryAdd at hnext
  dsimp only at hnext
  split_ifs at hnext with hfee hmax hfull hlast hfinal hsigOps
  · cases hnext
    exact ⟨es,hend⟩
  · cases hnext
    exact ⟨es,hend⟩
  · cases hnext
    exact ⟨es,hend.same ⟨rfl,rfl,rfl,rfl,rfl,rfl⟩⟩
  · cases hnext
    exact ⟨es,hend⟩
  · cases hnext
    exact ⟨es,hend⟩
  · cases hnext
    exact ⟨es,hend⟩
  · obtain ⟨children,_,hnext⟩ := bind_ok.mp hnext
    cases hnext
    exact ⟨es ++ [e],(hend.add he (not_le.mp hmax) (not_le.mp hsigOps)).same
      (foldl_release_same _ _)⟩

theorem consider_tallied {p : Picked Priority} {es : List CTxMemPoolEntry}
    (h : Tallied ctx pool p.s es) {next : SelectState Priority × Bool}
    (hnext : ctx.consider pool p = .ok next) : ∃ es', Tallied ctx pool next.1 es' := by
  unfold MinerContext.consider at hnext
  split_ifs at hnext with hin
  · cases hnext
    exact ⟨es,h⟩
  · obtain ⟨e,he,hnext⟩ := bind_ok.mp hnext
    obtain ⟨parents,_,hnext⟩ := bind_ok.mp hnext
    split_ifs at hnext with hparents
    · exact tryAdd_tallied h (CTxMemPool.entry_ok.mp he) hnext
    · cases hnext
      exact ⟨es,h.same (postpone_same _ _ _)⟩

theorem selectLoop_tallied {fuel : ℕ} {s s' : SelectState Priority} {es : List CTxMemPoolEntry}
    (h : Tallied ctx pool s es) (hrun : ctx.selectLoop pool fuel s = .ok (some s')) :
    ∃ es', Tallied ctx pool s' es' := by
  induction fuel generalizing s es with
  | zero => cases hrun
  | succ fuel ih =>
    unfold MinerContext.selectLoop at hrun
    split_ifs at hrun
    · cases hrun
      exact ⟨es,h⟩
    · obtain ⟨p,hp,hrun⟩ := bind_ok.mp hrun
      obtain ⟨next,hnext,hrun⟩ := bind_ok.mp hrun
      obtain ⟨es',hes'⟩ := consider_tallied (h.same (pick_same hp)) hnext
      dsimp only at hrun
      split_ifs at hrun
      · exact ih hes' hrun
      · cases hrun
        exact ⟨es',hes'⟩

theorem selectTxs_tallied {s : SelectState Priority} (hrun : ctx.selectTxs pool = .ok (some s)) :
    ∃ es, Tallied ctx pool s es :=
  @selectLoop_tallied _ _ _ _ (ctx.selectStart pool) s []
    ⟨(fun _ h => nomatch h),rfl,rfl,rfl,rfl,rfl,rfl,fun h => absurd rfl h,fun h => absurd rfl h⟩ hrun

end

/-- How an assembled block is made up. -/
structure Assembled [Crypto] {Priority : Type} (m : MinerState Priority) (scriptPubKeyIn : CScript)
    (t : CBlockTemplate) (wtJoinTX : CTransaction) (nFees : CAmount)
    (es : List CTxMemPoolEntry) : Prop where
  wtJoin : getWTJoinTX m.state (UInt32.ofNat m.nHeight) = .ok wtJoinTX
  mem : ∀ e ∈ es, ∃ it, m.mempool.mapTx.lookup it = some e
  fees : nFees.toInt = (es.map CTxMemPoolEntry.nFee).sum
  vtx : t.block.vtx = coinbaseTx scriptPubKeyIn m.nHeight nFees (m.bookkeeping wtJoinTX) ::
    es.map CTxMemPoolEntry.tx
  vTxFees : t.vTxFees = -nFees.toInt :: es.map CTxMemPoolEntry.nFee
  size_lt : es ≠ [] → 1000 + (es.map CTxMemPoolEntry.getTxSize).sum < m.ctx.args.nBlockMaxSize
  sigOps_lt : es ≠ [] → 100 + (es.map CTxMemPoolEntry.sigOpCount).sum < MAX_BLOCK_SIGOPS

theorem assembleBlock_ok [Crypto] {Priority : Type} {m : MinerState Priority}
    {scriptPubKeyIn : CScript} {t : CBlockTemplate} (h : m.assembleBlock scriptPubKeyIn = .ok t) :
    ∃ wtJoinTX nFees es, Assembled m scriptPubKeyIn t wtJoinTX nFees es := by
  obtain ⟨wtJoinTX,hwt,h⟩ := bind_ok.mp h
  obtain ⟨answer,hselect,h⟩ := bind_ok.mp h
  cases answer with
  | none => cases h
  | some s =>
    obtain ⟨nFees,hfees,h⟩ := bind_ok.mp h
    obtain ⟨_,_,h⟩ := bind_ok.mp h
    obtain ⟨hashPrev,_,h⟩ := bind_ok.mp h
    cases h
    obtain ⟨es,hes⟩ := selectTxs_tallied hselect
    have hsum := checked_ok.mp hfees
    refine ⟨wtJoinTX,nFees,es,hwt,hes.mem,hsum.trans hes.nFees,?_,?_,fun hne => ?_,fun hne => ?_⟩
    · rw [← hes.vtx]
    · rw [← hes.vTxFees,hsum]
    · rw [← hes.nBlockSize]
      exact hes.size_lt hne
    · rw [← hes.nBlockSigOps]
      exact hes.sigOps_lt hne

theorem assembleBlock_of [Crypto] {Priority : Type} {m : MinerState Priority} (scriptPubKeyIn : CScript)
    {wtJoinTX : CTransaction} {s : SelectState Priority} {nFees : CAmount} {hash : Uint256}
    (hwt : getWTJoinTX m.state (UInt32.ofNat m.nHeight) = .ok wtJoinTX)
    (hselect : m.selectContext.selectTxs m.mempool = .ok (some s)) (hfees : nFees.toInt = s.nFees)
    (hsend : wtJoinTX.vout = [] ∨ m.sendDrivechainWT wtJoinTX) (hhash : m.tip.phashBlock = some hash) :
    ∃ t, m.assembleBlock scriptPubKeyIn = .ok t ∧ t.block.vtx =
      coinbaseTx scriptPubKeyIn m.nHeight nFees (m.bookkeeping wtJoinTX) :: s.vtx := by
  have hsent : require (wtJoinTX.vout = [] ∨ m.sendDrivechainWT wtJoinTX) (.error (.exception
      "CreateNewBlock: CreateNewBlock failed: failed to broadcast WT^")) = .ok () := if_pos hsend
  have hprev := CBlockIndex.getBlockHash_ok.mpr hhash
  have hsum : checked s.nFees = .ok nFees := checked_ok.mpr hfees
  unfold MinerState.assembleBlock
  rw [hwt]
  dsimp only [bind,Except.bind]
  rw [hselect]
  dsimp only
  rw [hsum]
  dsimp only
  rw [hsent]
  dsimp only
  rw [hprev]
  exact ⟨_,rfl,rfl⟩

end Sidechain
