import Sidechain.Chain.Canonical
import Sidechain.Miner.CoinbaseValue
import Sidechain.Miner.UnrelatedPool

/-! Whether an assembled block keeps the limits on size and signature operations. The selection leaves a
thousand bytes and a hundred operations, and the coinbase gets an output for every object and every
payment of a deposit afterwards. -/
namespace Sidechain
open Run

/-- The signature operations of a transaction, with those of redeem scripts. -/
def countSigOps (tx : CTransaction) (view : CCoinsViewCache) : Outcome ℕ := do
  let nP2SHSigOps ← getP2SHSigOpCount tx view
  pure (getLegacySigOpCount tx + nP2SHSigOps)

/-- What `CheckBlock` asks of size and operations, and the limit with redeem scripts. -/
structure CBlock.WithinLimits (view : CCoinsViewCache) (block : CBlock) : Prop where
  length : ¬ (block.vtx = [] ∨ block.vtx.length > MAX_BLOCK_SIZE ∨
    block.getSerializeSize > MAX_BLOCK_SIZE)
  legacy : ¬ (block.vtx.map getLegacySigOpCount).sum > MAX_BLOCK_SIGOPS
  sigOps : ∃ counts, List.Forall₂ (fun tx n => countSigOps tx view = .ok n) block.vtx counts ∧
    counts.sum ≤ MAX_BLOCK_SIGOPS

/-- A pool whose transactions passed the checks and whose entries know their operations. -/
structure CTxMemPool.Admitted [Crypto] (view : CCoinsViewCache) (pool : CTxMemPool) : Prop where
  consistent : pool.Consistent
  checked : ∀ it e, pool.mapTx.lookup it = some e → e.tx.Checked
  counted : ∀ it e, pool.mapTx.lookup it = some e → countSigOps e.tx view = .ok e.sigOpCount

theorem CBlock.getSerializeSize_eq (block : CBlock) : block.getSerializeSize =
    80 + getSizeOfCompactSize block.vtx.length + (block.vtx.map CTransaction.getSerializeSize).sum := by
  have hsizes : CTransaction.getSerializeSize = CTransaction.countSize :=
    funext CTransaction.serialize_length
  rw [hsizes,CBlock.getSerializeSize,CBlock.serialize_length,CBlock.countSize,CBlockHeader.countSize,
    sizeOfVector]
  omega

theorem one_le_compactSize (n : ℕ) : 1 ≤ getSizeOfCompactSize n := by
  unfold getSizeOfCompactSize
  split_ifs <;> omega

/-- A transaction with an input and an output has at least sixty bytes. -/
theorem CTransaction.Checked.size_ge {tx : CTransaction} (h : tx.Checked) :
    60 ≤ tx.getSerializeSize := by
  obtain ⟨i,vin,hvin⟩ := List.exists_cons_of_ne_nil h.vin_ne_nil
  obtain ⟨o,vout,hvout⟩ := List.exists_cons_of_ne_nil h.vout_ne_nil
  have hin := one_le_compactSize (vin.length + 1)
  have hout := one_le_compactSize (vout.length + 1)
  have hsig := one_le_compactSize i.scriptSig.length
  have hpub := one_le_compactSize o.scriptPubKey.length
  rw [CTransaction.getSerializeSize,CTransaction.serialize_length,CTransaction.countSize,hvin,hvout]
  simp only [sizeOfVector,List.length_cons,List.map_cons,List.sum_cons,CTxIn.countSize,
    COutPoint.countSize,CTxOut.countSize,sizeOfBlob]
  omega

theorem sum_sizes_ge {txs : List CTransaction} (h : ∀ tx ∈ txs, tx.Checked) :
    60 * txs.length ≤ (txs.map CTransaction.getSerializeSize).sum := by
  induction txs with
  | nil => rfl
  | cons tx txs ih =>
    obtain ⟨htx,hrest⟩ := List.forall_mem_cons.mp h
    have hsize := htx.size_ge
    have hsum := ih hrest
    rw [List.length_cons,List.map_cons,List.sum_cons]
    omega

theorem sum_legacy_le {view : CCoinsViewCache} {txs : List CTransaction} {counts : List ℕ}
    (h : List.Forall₂ (fun tx n => countSigOps tx view = .ok n) txs counts) :
    (txs.map getLegacySigOpCount).sum ≤ counts.sum := by
  induction h with
  | nil => rfl
  | cons hcount _ ih =>
    obtain ⟨n,_,hn⟩ := bind_ok.mp hcount
    cases hn
    rw [List.map_cons,List.sum_cons,List.sum_cons]
    omega

section
variable [Crypto] {Priority : Type} (m : MinerState Priority) (scriptPubKeyIn : CScript)
  (wtJoinTX : CTransaction)

/-- The bytes of the coinbase: those of its fixed fields, its height and all its outputs. -/
def MinerState.coinbaseSize : ℕ :=
  49 + sizeOfBlob (pushInt64 m.nHeight ++ [OP_0]) +
    sizeOfVector CTxOut.countSize (⟨0,scriptPubKeyIn⟩::m.bookkeeping wtJoinTX)

/-- The signature operations that its scripts count for. -/
def MinerState.coinbaseSigOps : ℕ :=
  CScript.getSigOpCount (pushInt64 m.nHeight ++ [OP_0]) false + (scriptPubKeyIn.getSigOpCount false +
    ((m.bookkeeping wtJoinTX).map fun txout => txout.scriptPubKey.getSigOpCount false).sum)

/-- The coinbase has no more bytes and operations than a full selection leaves. -/
structure MinerState.CoinbaseFits : Prop where
  size : m.coinbaseSize scriptPubKeyIn wtJoinTX ≤ 1918
  sigOps : m.coinbaseSigOps scriptPubKeyIn wtJoinTX ≤ 101

theorem MinerState.getSerializeSize_coinbaseTx (nFees : CAmount) :
    (coinbaseTx scriptPubKeyIn m.nHeight nFees (m.bookkeeping wtJoinTX)).getSerializeSize =
      m.coinbaseSize scriptPubKeyIn wtJoinTX := by
  have hone : getSizeOfCompactSize (0 + 1) = 1 := rfl
  rw [CTransaction.getSerializeSize,CTransaction.serialize_length,CTransaction.countSize,coinbaseTx,
    MinerState.coinbaseSize]
  simp only [sizeOfVector,List.length_cons,List.length_nil,List.map_cons,List.map_nil,List.sum_cons,
    List.sum_nil,CTxIn.countSize,COutPoint.countSize,CTxOut.countSize]
  omega

theorem MinerState.getLegacySigOpCount_coinbaseTx (nFees : CAmount) :
    getLegacySigOpCount (coinbaseTx scriptPubKeyIn m.nHeight nFees (m.bookkeeping wtJoinTX)) =
      m.coinbaseSigOps scriptPubKeyIn wtJoinTX := by
  simp [getLegacySigOpCount,coinbaseTx,MinerState.coinbaseSigOps]

end

theorem compactSize_le {n : ℕ} (h : n ≤ 0xffff) : getSizeOfCompactSize n ≤ 3 := by
  unfold getSizeOfCompactSize
  split_ifs <;> omega

theorem compactSize_eq {n : ℕ} (h : 253 ≤ n) (h' : n ≤ 0xffff) : getSizeOfCompactSize n = 3 := by
  unfold getSizeOfCompactSize
  split_ifs <;> omega

theorem MinerArgs.nBlockMaxSize_le (args : MinerArgs) : args.nBlockMaxSize ≤ 999000 := by
  unfold MinerArgs.nBlockMaxSize MAX_BLOCK_SIZE
  omega

section
variable [Crypto] {Priority : Type} {m : MinerState Priority} {scriptPubKeyIn : CScript}
  {t : CBlockTemplate} {wtJoinTX : CTransaction} {nFees : CAmount} {es : List CTxMemPoolEntry}

/-- The transactions behind the coinbase fit into what is left of a block. -/
theorem Assembled.sum_sizes (h : Assembled m scriptPubKeyIn t wtJoinTX nFees es) :
    (es.map CTxMemPoolEntry.getTxSize).sum ≤ 997999 := by
  cases es with
  | nil => exact Nat.zero_le _
  | cons e es =>
    have hlt := h.size_lt (List.cons_ne_nil e es)
    have hmax := m.ctx.args.nBlockMaxSize_le
    omega

theorem Assembled.sum_sigOps (h : Assembled m scriptPubKeyIn t wtJoinTX nFees es) :
    (es.map CTxMemPoolEntry.sigOpCount).sum ≤ 19899 := by
  cases es with
  | nil => exact Nat.zero_le _
  | cons e es =>
    have hlt := h.sigOps_lt (List.cons_ne_nil e es)
    have hmax : MAX_BLOCK_SIGOPS = 20000 := rfl
    omega

theorem Assembled.withinLimits (h : Assembled m scriptPubKeyIn t wtJoinTX nFees es)
    {view : CCoinsViewCache} (hpool : m.mempool.Admitted view)
    (hfits : m.CoinbaseFits scriptPubKeyIn wtJoinTX) : t.block.WithinLimits view := by
  have hchecked : ∀ tx ∈ es.map CTxMemPoolEntry.tx, tx.Checked := by
    rintro _ htx
    obtain ⟨e,he,rfl⟩ := List.mem_map.mp htx
    obtain ⟨it,hit⟩ := h.mem e he
    exact hpool.checked it e hit
  have hsizes := h.sum_sizes
  have hsum : (es.map CTxMemPoolEntry.tx).map CTransaction.getSerializeSize =
      es.map CTxMemPoolEntry.getTxSize := List.map_map
  have hcount := sum_sizes_ge hchecked
  rw [hsum,List.length_map] at hcount
  have hlen : t.block.vtx.length = es.length + 1 := by
    rw [h.vtx,List.length_cons,List.length_map]
  have hsize : t.block.getSerializeSize ≤ MAX_BLOCK_SIZE := by
    have hstart := @compactSize_le (es.length + 1) (by omega)
    have hmax : MAX_BLOCK_SIZE = 1000000 := rfl
    have hcb := hfits.size
    rw [CBlock.getSerializeSize_eq,hlen,h.vtx,List.map_cons,List.sum_cons,hsum,
      m.getSerializeSize_coinbaseTx]
    omega
  let cb := coinbaseTx scriptPubKeyIn m.nHeight nFees (m.bookkeeping wtJoinTX)
  have hcb : countSigOps cb view = .ok (m.coinbaseSigOps scriptPubKeyIn wtJoinTX) :=
    bind_ok.mpr ⟨0,rfl,congrArg Except.ok (m.getLegacySigOpCount_coinbaseTx _ _ nFees)⟩
  have hcounts : List.Forall₂ (fun tx n => countSigOps tx view = .ok n) t.block.vtx
      (m.coinbaseSigOps scriptPubKeyIn wtJoinTX :: es.map CTxMemPoolEntry.sigOpCount) := by
    rw [h.vtx]
    refine .cons hcb ?_
    rw [List.forall₂_map_left_iff,List.forall₂_map_right_iff,List.forall₂_same]
    intro e he
    obtain ⟨it,hit⟩ := h.mem e he
    exact hpool.counted it e hit
  have htotal : (m.coinbaseSigOps scriptPubKeyIn wtJoinTX ::
      es.map CTxMemPoolEntry.sigOpCount).sum ≤ MAX_BLOCK_SIGOPS := by
    have hops := h.sum_sigOps
    have hcb := hfits.sigOps
    have hmax : MAX_BLOCK_SIGOPS = 20000 := rfl
    rw [List.sum_cons]
    omega
  refine ⟨?_,not_lt.mpr ((sum_legacy_le hcounts).trans htotal),_,hcounts,htotal⟩
  rintro (hnil | hlong | hlarge)
  · rw [hnil] at hlen
    cases hlen
  · have hmax : MAX_BLOCK_SIZE = 1000000 := rfl
    omega
  · exact absurd hsize (not_le.mpr hlarge)

end

end Sidechain
